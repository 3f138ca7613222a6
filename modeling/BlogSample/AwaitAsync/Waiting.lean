import BlogSample.AwaitAsync.Loss
import BlogSample.Theory.Grounded

/-!
# Tasks that Wait for Tasks

A task waits for another one when the callback that will complete it is stored
there. It is coming when this leads, over any number of tasks, to one that is
completed, queued or in a call. Once the items of the pool have been run, what
is coming is completed.

A task that is not coming is never coming again: a move completes a task, or
queues or calls what completes it, only for work that was under way before,
or that waited for such work.

## Main definitions

* `Waits`: One task waits for another one.
* `UnderWay`: A task is completed, or an item or a call has to complete it.
* `Coming`: The completion of a task is under way, directly or not.

## Theorems

* `Move.tasks`: What becomes of the tasks of a call.
* `Move.waits`: What becomes of the tasks that wait.
* `completed_of_drained`: What is coming is completed in the end.
* `Coming.before`: What is coming after a move was coming before.
* `Coming.only`: A task that waits has no other way to be completed.
-/

namespace BlogSample

namespace AwaitAsync

open Transition

/-- The task that a `Func` returns, or an enumerator yields. -/
def Act.inner : Act → Option Nat
  | .returnsTask next | .yields next => some next
  | _ => none

namespace Shared

/-- The task `u` waits for `y`: a callback that completes `u` is stored there,
    and `y` is open. -/
def Waits (m : Shared) (u y : Nat) : Prop :=
  ∃ task callback, m.tasks[y]? = some task ∧ callback ∈ task.stored ∧ u ∈ callback.tasks

end Shared

/-- The task `u` is completed, or an item of the pool or a call of a thread has
    to complete it. -/
inductive UnderWay (s : State) (u : Nat) : Prop
  | completed (h : s.shared.completed u = true)
  | queued (callback : Callback) (h : callback ∈ s.shared.workerItems) (hu : u ∈ callback.tasks)
  | called (h : Calls s.threads (fun frame => u ∈ frame.tasks))

/-- The completion of a task is under way, or that of a task it waits for. -/
def Coming (s : State) (u : Nat) : Prop :=
  Grounded s.shared.Waits (UnderWay s) u

variable {m m' : Shared} {frame : Frame} {act : Act} {frames : List Frame}

/-- A completed task stays completed. -/
theorem Move.completed (h : Move m frame act m' frames) {u : Nat} (hu : m.completed u = true) :
    m'.completed u = true := by
  cases h with
  | run | iterate | new => exact (Shared.completed_create m u).trans hu
  | continueWith frame t m₁ huser hm => exact (Shared.completed_continueWith hm u).trans hu
  | continueWithFunc frame t m' huser hm => exact (Shared.completed_continueWith hm u).trans hu
  | returnsTask t next m' hm => exact (Shared.completed_continueWith hm u).trans hu
  | yields t next m' hm => exact (Shared.completed_continueWith hm u).trans hu
  | complete t m' frames hm =>
      rcases Shared.setResult_cases hm with ⟨task, htask, -, rfl, -⟩
      rw [Shared.completed_write htask]
      by_cases htu : t = u
      · rw [if_pos htu]
      · rw [if_neg htu]
        exact hu
  | take | invokeUser | invokeForward | invokeForwardException | invokeMoveNext | invokeFunc
  | setResult | returns | ends | actionThrows | funcThrows | enumeratorThrows | leave => exact hu

/-- What a registration leaves alone: the items of the pool, and what is stored
    elsewhere. -/
theorem Shared.queued_continueWith {y : Nat} {callback : Nat → Callback}
    (hm : m.continueWith y callback = some m') {item : Callback} (h : item ∈ m.workerItems) :
    item ∈ m'.workerItems := by
  rcases continueWith_cases hm with ⟨task, htask, ⟨_, rfl⟩ | ⟨_, rfl⟩⟩
  · exact List.mem_append_left _ h
  · exact h

theorem Shared.Waits.create {u z : Nat} (h : m.Waits u z) : m.create.Waits u z := by
  rcases h with ⟨task, callback, htask, hstored, hu⟩
  exact ⟨task, callback, getElem?_create htask, hstored, hu⟩

theorem Shared.Waits.write {u z : Nat} (h : m.Waits u z) {y : Nat} (hy : y ≠ z) (new : MyTask) :
    (m.write y new).Waits u z := by
  rcases h with ⟨task, callback, htask, hstored, hu⟩
  refine ⟨task, callback, ?_, hstored, hu⟩
  unfold Shared.write
  rw [List.getElem?_set_ne hy]
  exact htask

theorem Shared.Waits.continueWith {y : Nat} {callback : Nat → Callback}
    (hm : m.continueWith y callback = some m') {u z : Nat} (h : m.Waits u z) :
    m'.Waits u z ∨ z = y := by
  rcases continueWith_cases hm with ⟨task, htask, ⟨_, rfl⟩ | ⟨_, rfl⟩⟩
  · exact .inl h.create
  · by_cases hzy : z = y
    · exact .inr hzy
    · exact .inl (h.create.write (fun hyz => hzy hyz.symm) _)

/-- A callback that is registered is queued, or stored on the task. -/
theorem Shared.registered_continueWith {y : Nat} {callback : Nat → Callback}
    (hm : m.continueWith y callback = some m') {u : Nat}
    (hu : u ∈ (callback m.tasks.length).tasks) :
    (∃ item ∈ m'.workerItems, u ∈ item.tasks) ∨ m'.Waits u y := by
  rcases continueWith_cases hm with ⟨task, htask, ⟨_, rfl⟩ | ⟨hopen, rfl⟩⟩
  · exact .inl ⟨_, List.mem_append_right _ List.mem_cons_self, hu⟩
  · have hy := (List.getElem?_eq_some_iff.mp (getElem?_create htask)).1
    refine .inr ⟨{ task with continuation := some (callback m.tasks.length) }, _,
      List.getElem?_set_self hy, ?_, hu⟩
    rw [MyTask.stored_continuation hopen]
    exact List.mem_singleton_self _

/-- An item of the pool stays there, or is about to run. -/
theorem Move.queued (h : Move m frame act m' frames) {callback : Callback}
    (hc : callback ∈ m.workerItems) :
    callback ∈ m'.workerItems ∨ .invoke callback ∈ frames := by
  cases h with
  | take item items hitems =>
      rw [hitems] at hc
      rcases List.mem_cons.mp hc with rfl | hc
      · exact .inr List.mem_cons_self
      · exact .inl hc
  | run => exact .inl (List.mem_append_left _ hc)
  | continueWith frame t m₁ huser hm => exact .inl (Shared.queued_continueWith hm hc)
  | continueWithFunc frame t m' huser hm => exact .inl (Shared.queued_continueWith hm hc)
  | returnsTask t next m' hm => exact .inl (Shared.queued_continueWith hm hc)
  | yields t next m' hm => exact .inl (Shared.queued_continueWith hm hc)
  | complete t m' frames hm =>
      rcases Shared.setResult_cases hm with ⟨task, htask, -, rfl, -⟩
      exact .inl hc
  | iterate | new | invokeUser | invokeForward | invokeForwardException | invokeMoveNext
  | invokeFunc | setResult | returns | ends | actionThrows | funcThrows | enumeratorThrows
  | leave => exact .inl hc

/-- A callback stored on a task stays there, or is about to run, or is written
    over. -/
theorem Move.waits (h : Move m frame act m' frames) {u y : Nat} (hu : m.Waits u y) :
    m'.Waits u y ∨ (∃ f ∈ frames, u ∈ f.tasks) ∨ act.registersOn = some y := by
  -- A registration adds one edge and keeps the others.
  have hregister : ∀ {z : Nat}, (m'.Waits u y ∨ y = z) → act.registersOn = some z →
      m'.Waits u y ∨ (∃ f ∈ frames, u ∈ f.tasks) ∨ act.registersOn = some y := by
    intro z hz hact
    rcases hz with hz | rfl
    · exact .inl hz
    · exact .inr (.inr hact)
  cases h with
  | run | iterate | new => exact .inl hu.create
  | continueWith frame t m₁ huser hm => exact hregister (hu.continueWith hm) rfl
  | continueWithFunc frame t m' huser hm => exact hregister (hu.continueWith hm) rfl
  | returnsTask t next m' hm =>
      have hlog : ({ m with returned := (t, next) :: m.returned } : Shared).Waits u y := hu
      exact hregister (hlog.continueWith hm) rfl
  | yields t next m' hm => exact hregister (hu.continueWith hm) rfl
  | complete t m' frames hm =>
      rcases Shared.setResult_cases hm with ⟨task, htask, hopen, rfl, hcall⟩
      by_cases hty : t = y
      -- What is stored on the task that is completed is invoked.
      · subst hty
        rcases hu with ⟨old, callback, hold, hstored, hu⟩
        rw [htask, Option.some.injEq] at hold
        subst hold
        rw [MyTask.stored_of_open _ hopen, Option.mem_toList] at hstored
        rcases hcall with ⟨hnone, _⟩ | ⟨stored, hsome, rfl⟩
        · rw [hnone] at hstored
          cases hstored
        · rw [hsome] at hstored
          cases hstored
          exact .inr (.inl ⟨_, List.mem_cons_self, hu⟩)
      · exact .inl (hu.write hty _)
  | take | invokeUser | invokeForward | invokeForwardException | invokeMoveNext | invokeFunc
  | setResult | returns | ends | actionThrows | funcThrows | enumeratorThrows | leave =>
      exact .inl hu

/-- What becomes of the tasks of a call that does not throw: it, or a call that
    it makes, still has to complete them, or does so, or they wait for what is
    handed over. -/
theorem Move.tasks (h : Move m frame act m' frames) (hthrows : ∀ e, act ≠ .throws e)
    (hclean : ∀ task ∈ m.tasks, task.exception = none) {u : Nat} (hu : u ∈ frame.tasks) :
    (∃ f ∈ frames, u ∈ f.tasks) ∨ m'.completed u = true ∨
      (∃ item ∈ m'.workerItems, u ∈ item.tasks) ∨
      ∃ next, act.inner = some next ∧ m'.Waits u next := by
  have hregister : ∀ {next : Nat}, ((∃ item ∈ m'.workerItems, u ∈ item.tasks) ∨
      m'.Waits u next) → act.inner = some next → (∃ f ∈ frames, u ∈ f.tasks) ∨
      m'.completed u = true ∨ (∃ item ∈ m'.workerItems, u ∈ item.tasks) ∨
      ∃ next, act.inner = some next ∧ m'.Waits u next := by
    intro next hr hact
    rcases hr with hr | hr
    · exact .inr (.inr (.inl hr))
    · exact .inr (.inr (.inr ⟨next, hact, hr⟩))
  cases h with
  | take | leave => cases hu
  | invokeUser t =>
      exact .inl ⟨_, List.mem_cons_self, hu⟩
  | invokeFunc t => exact .inl ⟨_, List.mem_cons_self, hu⟩
  | invokeForward t outer next task htask hnone =>
      rcases List.mem_cons.mp hu with rfl | hu
      · exact .inl ⟨_, List.mem_cons_of_mem _ List.mem_cons_self, List.mem_cons_self⟩
      · exact .inl ⟨_, List.mem_cons_self, hu⟩
  -- The branch that reads an exception is never taken.
  | invokeForwardException t outer next task exception htask hsome =>
      rw [hclean task (List.mem_of_getElem? htask)] at hsome
      cases hsome
  | invokeMoveNext t outer =>
      rcases List.mem_cons.mp hu with rfl | hu
      · exact .inl ⟨_, List.mem_cons_of_mem _ List.mem_cons_self, List.mem_cons_self⟩
      · exact .inl ⟨_, List.mem_cons_self, hu⟩
  | run | continueWith | continueWithFunc | new => exact .inl ⟨frame, List.mem_cons_self, hu⟩
  | iterate | setResult =>
      exact .inl ⟨frame, List.mem_cons_of_mem _ List.mem_cons_self, hu⟩
  | returns t => exact .inl ⟨_, List.mem_cons_self, hu⟩
  | ends t => exact .inl ⟨_, List.mem_cons_self, hu⟩
  | returnsTask t next m' hm =>
      exact hregister (Shared.registered_continueWith hm (List.mem_cons_of_mem _ hu)) rfl
  | yields t next m' hm =>
      exact hregister (Shared.registered_continueWith hm (List.mem_cons_of_mem _ hu)) rfl
  | actionThrows t exception => exact absurd rfl (hthrows exception)
  | funcThrows t exception => exact absurd rfl (hthrows exception)
  | enumeratorThrows t exception => exact absurd rfl (hthrows exception)
  | complete t m' frames hm =>
      rcases Shared.setResult_cases hm with ⟨task, htask, -, rfl, -⟩
      have hut : u = t := List.mem_singleton.mp hu
      right
      left
      rw [Shared.completed_write htask, if_pos hut.symm]

/-- Once the items of the pool have been run, what is coming is completed. -/
theorem completed_of_drained {s : State} (hdrained : Drained s) {u : Nat} (h : Coming s u) :
    s.shared.completed u = true := by
  refine Grounded.within (fun u => s.shared.completed u = true) (fun x hx => ?_)
    (fun x y hxy hy => ?_) h
  · rcases hx with hcompleted | ⟨callback, hqueued, _⟩ | ⟨stack, hstack, f, hf, hu⟩
    · exact hcompleted
    · rw [hdrained.1] at hqueued
      cases hqueued
    · rcases hdrained.2 stack hstack with rfl | rfl
      · rw [List.mem_singleton.mp hf] at hu
        cases hu
      · rw [List.mem_singleton.mp hf] at hu
        cases hu
  · rcases hxy with ⟨task, callback, htask, hstored, _⟩
    unfold Shared.completed at hy
    rw [htask, Option.any_some] at hy
    unfold MyTask.stored at hstored
    rw [if_pos hy] at hstored
    cases hstored

/-- A task that is completed after a move was so before, or the call completed
    it. -/
theorem Move.completed_before (h : Move m frame act m' frames) {u : Nat}
    (hu : m'.completed u = true) : m.completed u = true ∨ u ∈ frame.tasks := by
  cases h with
  | run | iterate | new => exact .inl ((Shared.completed_create m u).symm.trans hu)
  | continueWith frame t m₁ huser hm =>
      exact .inl ((Shared.completed_continueWith hm u).symm.trans hu)
  | continueWithFunc frame t m' huser hm =>
      exact .inl ((Shared.completed_continueWith hm u).symm.trans hu)
  | returnsTask t next m' hm => exact .inl ((Shared.completed_continueWith hm u).symm.trans hu)
  | yields t next m' hm => exact .inl ((Shared.completed_continueWith hm u).symm.trans hu)
  | complete t m' frames hm =>
      rcases Shared.setResult_cases hm with ⟨task, htask, -, rfl, -⟩
      rw [Shared.completed_write htask] at hu
      by_cases htu : t = u
      · exact .inr (List.mem_singleton.mpr htu.symm)
      · rw [if_neg htu] at hu
        exact .inl hu
  | take | invokeUser | invokeForward | invokeForwardException | invokeMoveNext | invokeFunc
  | setResult | returns | ends | actionThrows | funcThrows | enumeratorThrows | leave =>
      exact .inl hu

/-- An item that is in the pool after a registration was there, or is what was
    registered. -/
theorem Shared.queued_of_continueWith {y : Nat} {callback : Nat → Callback}
    (hm : m.continueWith y callback = some m') {item : Callback} (h : item ∈ m'.workerItems) :
    item ∈ m.workerItems ∨ item = callback m.tasks.length := by
  rcases continueWith_cases hm with ⟨task, htask, ⟨_, rfl⟩ | ⟨_, rfl⟩⟩
  · rcases List.mem_append.mp h with h | h
    · exact .inl h
    · exact .inr (List.mem_singleton.mp h)
  · exact .inl h

theorem Shared.Waits.of_create {u z : Nat} (h : m.create.Waits u z) : m.Waits u z := by
  rcases h with ⟨task, callback, htask, hstored, hu⟩
  unfold Shared.create at htask
  by_cases hz : z < m.tasks.length
  · rw [List.getElem?_append_left hz] at htask
    exact ⟨task, callback, htask, hstored, hu⟩
  · rw [List.getElem?_append_right (by omega)] at htask
    rw [List.mem_singleton.mp (List.mem_of_getElem? htask)] at hstored
    cases hstored

theorem Shared.Waits.of_write {u y z : Nat} {new : MyTask} (h : (m.write y new).Waits u z) :
    m.Waits u z ∨ ∃ callback ∈ new.stored, u ∈ callback.tasks := by
  rcases h with ⟨task, callback, htask, hstored, hu⟩
  unfold Shared.write at htask
  by_cases hyz : y = z
  · rw [← hyz] at htask
    rcases List.getElem?_eq_some_iff.mp htask with ⟨hlength, hget⟩
    rw [List.getElem_set_self] at hget
    subst hget
    exact .inr ⟨callback, hstored, hu⟩
  · rw [List.getElem?_set_ne hyz] at htask
    exact .inl ⟨task, callback, htask, hstored, hu⟩

theorem Shared.Waits.of_continueWith {y : Nat} {callback : Nat → Callback}
    (hm : m.continueWith y callback = some m') {u z : Nat} (h : m'.Waits u z) :
    m.Waits u z ∨ u ∈ (callback m.tasks.length).tasks := by
  rcases continueWith_cases hm with ⟨task, htask, ⟨_, rfl⟩ | ⟨hopen, rfl⟩⟩
  · exact .inl (Waits.of_create h)
  · rcases h.of_write with h | ⟨stored, hstored, hu⟩
    · exact .inl h.of_create
    · rw [MyTask.stored_continuation hopen, List.mem_singleton] at hstored
      rw [hstored] at hu
      exact .inr hu

/-- A task that an item of the pool completes after a move is new, or the call
    had to complete it, or the item was there before. -/
theorem Move.queued_before (h : Move m frame act m' frames) {callback : Callback} {u : Nat}
    (hc : callback ∈ m'.workerItems) (hu : u ∈ callback.tasks) (hold : u < m.tasks.length) :
    callback ∈ m.workerItems ∨ u ∈ frame.tasks := by
  -- A callback is queued by the thread pool or by a continuation of a task that has
  -- been completed; its new task is not an old one.
  cases h with
  | take item items hitems =>
      rw [hitems]
      exact .inl (List.mem_cons_of_mem _ hc)
  | run frame huser =>
      rcases List.mem_append.mp hc with hc | hc
      · exact .inl hc
      · rw [List.mem_singleton.mp hc] at hu
        exact absurd (List.mem_singleton.mp hu) (Nat.ne_of_lt hold)
  | continueWith frame t m₁ huser hm =>
      rcases Shared.queued_of_continueWith hm hc with hc | rfl
      · exact .inl hc
      · exact absurd (List.mem_singleton.mp hu) (Nat.ne_of_lt hold)
  | continueWithFunc frame t m' huser hm =>
      rcases Shared.queued_of_continueWith hm hc with hc | rfl
      · exact .inl hc
      · exact absurd (List.mem_singleton.mp hu) (Nat.ne_of_lt hold)
  | returnsTask t next m' hm =>
      rcases Shared.queued_of_continueWith hm hc with hc | rfl
      · exact .inl hc
      · rcases List.mem_cons.mp hu with hnew | hu
        · exact absurd hnew (Nat.ne_of_lt hold)
        · exact .inr hu
  | yields t next m' hm =>
      rcases Shared.queued_of_continueWith hm hc with hc | rfl
      · exact .inl hc
      · rcases List.mem_cons.mp hu with hnew | hu
        · exact absurd hnew (Nat.ne_of_lt hold)
        · exact .inr hu
  | complete t m' frames hm =>
      rcases Shared.setResult_cases hm with ⟨task, htask, -, rfl, -⟩
      exact .inl hc
  | iterate | new | invokeUser | invokeForward | invokeForwardException | invokeMoveNext
  | invokeFunc | setResult | returns | ends | actionThrows | funcThrows | enumeratorThrows
  | leave => exact .inl hc

/-- A task that waits after a move is new, or the call had to complete it, or
    it waited for the same one before. -/
theorem Move.waits_before (h : Move m frame act m' frames) {u y : Nat} (hu : m'.Waits u y)
    (hold : u < m.tasks.length) : m.Waits u y ∨ u ∈ frame.tasks := by
  -- Only a continuation that is stored adds an edge, and that is from its new task
  -- or from a task of the frame.
  cases h with
  | run | iterate | new => exact .inl (Shared.Waits.of_create hu)
  | continueWith frame t m₁ huser hm =>
      have hwaits : m₁.Waits u y := hu
      rcases hwaits.of_continueWith hm with hwaits | hnew
      · exact .inl hwaits
      · exact absurd (List.mem_singleton.mp hnew) (Nat.ne_of_lt hold)
  | continueWithFunc frame t m' huser hm =>
      rcases hu.of_continueWith hm with hwaits | hnew
      · exact .inl hwaits
      · exact absurd (List.mem_singleton.mp hnew) (Nat.ne_of_lt hold)
  | returnsTask t next m' hm =>
      rcases hu.of_continueWith hm with hwaits | hnew
      · exact .inl hwaits
      · rcases List.mem_cons.mp hnew with hnew | hnew
        · exact absurd hnew (Nat.ne_of_lt hold)
        · exact .inr hnew
  | yields t next m' hm =>
      rcases hu.of_continueWith hm with hwaits | hnew
      · exact .inl hwaits
      · rcases List.mem_cons.mp hnew with hnew | hnew
        · exact absurd hnew (Nat.ne_of_lt hold)
        · exact .inr hnew
  | complete t m' frames hm =>
      rcases Shared.setResult_cases hm with ⟨task, htask, hopen, rfl, hcall⟩
      rcases hu.of_write with hwaits | ⟨callback, hstored, _⟩
      · exact .inl hwaits
      · cases hstored
  | take | invokeUser | invokeForward | invokeForwardException | invokeMoveNext | invokeFunc
  | setResult | returns | ends | actionThrows | funcThrows | enumeratorThrows | leave =>
      exact .inl hu

/-- A task that a call has to complete after a move is new, or the call that
    moved had to complete it, or an item of the pool, or it waited for the
    task that the call completed. -/
theorem Move.tasks_before (h : Move m frame act m' frames) (hpledged : m.pledged = []) {u : Nat}
    {f : Frame} (hf : f ∈ frames) (hu : u ∈ f.tasks) (hold : u < m.tasks.length) :
    u ∈ frame.tasks ∨ (∃ item ∈ m.workerItems, u ∈ item.tasks) ∨
      ∃ y ∈ frame.tasks, m.Waits u y := by
  cases h with
  | take item items hitems =>
      rcases List.mem_cons.mp hf with rfl | hf
      · rw [hitems]
        exact .inr (.inl ⟨item, List.mem_cons_self, hu⟩)
      · rw [List.mem_singleton.mp hf] at hu
        cases hu
  | invokeUser t | invokeFunc t | returns t | ends t =>
      rw [List.mem_singleton.mp hf] at hu
      exact .inl hu
  | invokeForward t outer next task htask hnone =>
      rcases List.mem_cons.mp hf with rfl | hf
      · exact .inl (List.mem_cons_of_mem _ hu)
      · rw [List.mem_singleton.mp hf] at hu
        rw [List.mem_singleton.mp hu]
        exact .inl List.mem_cons_self
  | invokeForwardException t outer next task exception htask hsome =>
      rw [List.mem_singleton.mp hf] at hu
      rw [List.mem_singleton.mp hu]
      exact .inl List.mem_cons_self
  | invokeMoveNext t outer =>
      rcases List.mem_cons.mp hf with rfl | hf
      · exact .inl (List.mem_cons_of_mem _ hu)
      · rw [List.mem_singleton.mp hf] at hu
        rw [List.mem_singleton.mp hu]
        exact .inl List.mem_cons_self
  | run | continueWith | continueWithFunc | new =>
      rw [List.mem_singleton.mp hf] at hu
      exact .inl hu
  | iterate frame huser =>
      rcases List.mem_cons.mp hf with rfl | hf
      -- The task of an enumerator is a new one.
      · exact absurd (List.mem_singleton.mp hu) (Nat.ne_of_lt hold)
      · rw [List.mem_singleton.mp hf] at hu
        exact .inl hu
  | setResult frame t huser ht =>
      rw [hpledged] at ht
      cases ht
  | returnsTask | yields | actionThrows | funcThrows | enumeratorThrows | leave => cases hf
  | complete t m' frames hm =>
      rcases Shared.setResult_cases hm with ⟨task, htask, hopen, rfl, hcall⟩
      rcases hcall with ⟨_, rfl⟩ | ⟨callback, hsome, rfl⟩
      · cases hf
      · rcases List.mem_cons.mp hf with rfl | hf
        -- What the call completes had the callback stored.
        · refine .inr (.inr ⟨t, List.mem_singleton_self t, task, callback, htask, ?_, hu⟩)
          rw [task.stored_of_open hopen, hsome]
          exact List.mem_singleton_self _
        · rw [List.mem_singleton.mp hf] at hu
          cases hu

/-- What is coming after a step, and was there before, was coming before. -/
theorem Coming.before {s s' : State} {label : Nat × Act} (hpledged : s.shared.pledged = [])
    (hstep : step s label = some s') {u : Nat} (h : Coming s' u)
    (hold : u < s.shared.tasks.length) : Coming s u := by
  rcases label with ⟨th, act⟩
  rcases step_cases hstep with ⟨frame, rest, m', frames, hthread, -, hmove, rfl⟩
  -- The frame that moves was there before.
  have hframe : ∀ x ∈ frame.tasks, Coming s x := by
    intro x hx
    exact .base x (.called ⟨frame :: rest, List.mem_of_getElem? hthread, frame,
      List.mem_cons_self, hx⟩)
  -- By induction on how the task is coming after the step.
  unfold Coming at h
  induction h with
  | base x hx =>
      rcases hx with hcompleted | ⟨callback, hqueued, hu⟩ | hcalled
      · rcases hmove.completed_before hcompleted with hcompleted | hx
        · exact .base x (.completed hcompleted)
        · exact hframe x hx
      · rcases hmove.queued_before hqueued hu hold with hqueued | hx
        · exact .base x (.queued callback hqueued hu)
        · exact hframe x hx
      · rcases calls_before hthread hcalled with ⟨f, hf, hu⟩ | hcalled
        · rcases hmove.tasks_before hpledged hf hu hold with
            hx | ⟨item, hitem, hu⟩ | ⟨y, hy, hwaits⟩
          · exact hframe x hx
          · exact .base x (.queued item hitem hu)
          · exact .step x y hwaits (hframe y hy)
        · exact .base x (.called hcalled)
  | step x y hxy _ ih =>
      rcases hmove.waits_before hxy hold with hwaits | hx
      · rcases hwaits with ⟨task, callback, htask, hstored, hu⟩
        have hy := (List.getElem?_eq_some_iff.mp htask).1
        exact .step x y ⟨task, callback, htask, hstored, hu⟩ (ih hy)
      · exact hframe x hx

/-- What is under way has a place that is not on another task. -/
theorem UnderWay.pos {s : State} {u : Nat} (h : UnderWay s u) :
    0 < tally (fun c => c.tasks.count u) s.shared.workerItems +
      tally (tally (fun f => f.tasks.count u)) s.threads + s.shared.done u := by
  rcases h with hcompleted | ⟨item, hqueued, hitem⟩ | ⟨stack, hstack, f, hf, hframe⟩
  · have hdone : s.shared.done u = 1 := by
      unfold Shared.done
      rw [hcompleted]
      rfl
    omega
  · have hqueue := le_tally (fun c : Callback => c.tasks.count u) hqueued
    have hone : 0 < item.tasks.count u := List.count_pos_iff.mpr hitem
    omega
  · have hthread := le_tally (tally (fun f : Frame => f.tasks.count u)) hstack
    have hcall := le_tally (fun f : Frame => f.tasks.count u) hf
    have hone : 0 < f.tasks.count u := List.count_pos_iff.mpr hframe
    omega

/-- What waits for a task has a place there. -/
theorem Shared.Waits.pos {u y : Nat} (h : m.Waits u y) : ∃ task, m.tasks[y]? = some task ∧
    0 < tally (fun c => c.tasks.count u) task.stored := by
  rcases h with ⟨task, callback, htask, hstored, hu⟩
  have hcell := le_tally (fun c : Callback => c.tasks.count u) hstored
  have hone : 0 < callback.tasks.count u := List.count_pos_iff.mpr hu
  exact ⟨task, htask, by omega⟩

/-- A task that waits is not also under way, since its work is in one place. -/
theorem Shared.Waits.not_underWay {s : State} (hacc : Accounted s) {u y : Nat}
    (hwaits : s.shared.Waits u y) : ¬ UnderWay s u := by
  intro hunder
  rcases hwaits.pos with ⟨task, htask, hstored⟩
  have hcell := le_tally (fun task : MyTask => tally (fun c => c.tasks.count u) task.stored)
    (List.mem_of_getElem? htask)
  have hplace := hunder.pos
  have hheld := (hacc.held u).1
  unfold State.held Shared.weigh at hheld
  omega

/-- A task waits for one task only. -/
theorem Shared.Waits.unique {s : State} (hacc : Accounted s) {u y z : Nat}
    (hy : s.shared.Waits u y) (hz : s.shared.Waits u z) : y = z := by
  by_contra hne
  rcases hy.pos with ⟨task, htask, hstored⟩
  rcases hz.pos with ⟨task', htask', hstored'⟩
  have hcells := add_le_tally (fun task : MyTask => tally (fun c => c.tasks.count u) task.stored)
    hne htask htask'
  have hheld := (hacc.held u).1
  unfold State.held Shared.weigh at hheld
  omega

/-- A task that waits for another one is coming only if that one is. -/
theorem Coming.only {s : State} (hacc : Accounted s) {u y : Nat} (h : Coming s u)
    (hwaits : s.shared.Waits u y) : Coming s y := by
  unfold Coming at h
  rcases h with ⟨_, hunder⟩ | ⟨_, z, hz, hcoming⟩
  · exact absurd hunder (hwaits.not_underWay hacc)
  · rw [hwaits.unique hacc hz]
    exact hcoming

/-- Lost work is not coming. -/
theorem Lost.not_coming {s : State} {u : Nat} (h : Lost s u) : ¬ Coming s u := by
  intro hcoming
  have hlost := h.2
  unfold State.held Shared.weigh at hlost
  unfold Coming at hcoming
  rcases hcoming with ⟨_, hunder⟩ | ⟨_, z, hwaits, _⟩
  · have hplace := hunder.pos
    omega
  · rcases hwaits.pos with ⟨task, htask, hstored⟩
    have hcell := le_tally (fun task : MyTask => tally (fun c => c.tasks.count u) task.stored)
      (List.mem_of_getElem? htask)
    omega

/-- A registration leaves those alone that wait for other tasks. -/
theorem Move.waits_elsewhere (h : Move m frame act m' frames) {y : Nat}
    (hact : act.registersOn = some y) {u z : Nat} (hu : m.Waits u z) (hz : z ≠ y) :
    m'.Waits u z := by
  have hregister : (m'.Waits u z ∨ z = y) → m'.Waits u z := by
    intro hor
    rcases hor with hwaits | hzy
    · exact hwaits
    · exact absurd hzy hz
  cases h with
  | continueWith frame t m₁ huser hm =>
      cases hact
      exact hregister (hu.continueWith hm)
  | continueWithFunc frame t m' huser hm =>
      cases hact
      exact hregister (hu.continueWith hm)
  | returnsTask t next m' hm =>
      cases hact
      have hlog : ({ m with returned := (t, y) :: m.returned } : Shared).Waits u z := hu
      exact hregister (hlog.continueWith hm)
  | yields t next m' hm =>
      cases hact
      exact hregister (hu.continueWith hm)
  | _ => cases hact

/-- What is registered on an open task waits for it. -/
theorem Shared.waits_of_open {y : Nat} {callback : Nat → Callback}
    (hm : m.continueWith y callback = some m') (hopen : ¬ m.completed y = true) {u : Nat}
    (hu : u ∈ (callback m.tasks.length).tasks) : m'.Waits u y := by
  rcases continueWith_cases hm with ⟨task, htask, ⟨hcompleted, _⟩ | ⟨hnot, rfl⟩⟩
  · refine absurd ?_ hopen
    unfold Shared.completed
    rw [htask]
    exact hcompleted
  · have hy := (List.getElem?_eq_some_iff.mp (getElem?_create htask)).1
    refine ⟨{ task with continuation := some (callback m.tasks.length) }, _,
      List.getElem?_set_self hy, ?_, hu⟩
    rw [MyTask.stored_continuation hnot]
    exact List.mem_singleton_self _

/-- What hands over an open task waits for it afterwards. -/
theorem Move.waits_inner (h : Move m frame act m' frames) {next : Nat}
    (hact : act.inner = some next) (hopen : ¬ m.completed next = true) :
    next < m.tasks.length ∧ ∃ u ∈ frame.ongoing, m'.Waits u next := by
  cases h with
  | returnsTask t next m' hm =>
      cases hact
      rcases Shared.continueWith_cases hm with ⟨task, htask, _⟩
      exact ⟨(List.getElem?_eq_some_iff.mp htask).1, t, List.mem_singleton_self t,
        Shared.waits_of_open hm hopen (List.mem_cons_of_mem _ (List.mem_singleton_self t))⟩
  | yields t next m' hm =>
      cases hact
      rcases Shared.continueWith_cases hm with ⟨task, htask, _⟩
      exact ⟨(List.getElem?_eq_some_iff.mp htask).1, t, List.mem_singleton_self t,
        Shared.waits_of_open hm hopen (List.mem_cons_of_mem _ (List.mem_singleton_self t))⟩
  | _ => cases hact

end AwaitAsync

end BlogSample
