import BlogSample.AwaitAsync.MyTask
import BlogSample.Theory.Tally
import Mathlib.Data.List.Basic

/-!
# Where the Work of a Task Is

The work of a task has not begun, and then one callback has it, stored on
another task, in the pool, or about to run. Or the work has begun, and then
one call or one callback will complete the task, or nothing will. Every move
hands the work on or loses it, and none has it twice, which is one invariant
with three inequalities for each task.

So no work begins twice, and a call of `SetResult` inside the library always
finds its task not completed: the `InvalidOperationException` is for a caller
who completes a task of his own twice.

## Main definitions

* `pending`: How often the work of a task is still to begin.
* `ongoing`: How often a task is still to be completed by work that began.
* `Noted`: What is added to the notes of a run.
* `Accounted`: No work is there twice.

## Theorems

* `Move.balanced`: What a move does to the two counts.
* `Move.noted`: What a move adds to the notes of a run.
* `conserved`: What a step does to them.
* `accounted`: No work is ever there twice.
* `begins_le_one`: No work begins twice.
* `setResult_isSome`: `SetResult` never throws.
-/

namespace BlogSample

namespace AwaitAsync

open Transition

/-- The tasks that an action completes, other than that of its callback. -/
def Action.inner : Action → List Nat
  | .user => []
  | .forward outer _ => [outer]
  | .moveNext outer => [outer]

namespace Callback

/-- The task that a callback completes. -/
def task : Callback → Nat
  | .action t _ => t
  | .func t => t

/-- The tasks that the action of a callback completes. -/
def inner : Callback → List Nat
  | .action _ a => a.inner
  | .func _ => []

/-- The tasks that a callback still has to complete. -/
def tasks (callback : Callback) : List Nat :=
  callback.task :: callback.inner

end Callback

namespace Frame

/-- The tasks whose work begins with a call. -/
def pending : Frame → List Nat
  | .invoke callback => [callback.task]
  | _ => []

/-- The tasks whose work a call goes on with. -/
def ongoing : Frame → List Nat
  | .invoke callback => callback.inner
  | .action t | .func t | .enumerator t | .setResult t => [t]
  | .client | .worker | .unlock _ => []

/-- The tasks that a call still has to complete. -/
def tasks (frame : Frame) : List Nat :=
  frame.pending ++ frame.ongoing

end Frame

/-- The callback that is stored on a task and may still run. -/
def MyTask.stored (task : MyTask) : List Callback :=
  if task.completed = true then [] else task.continuation.toList

theorem MyTask.stored_of_open (task : MyTask) (h : task.completed = false) :
    task.stored = task.continuation.toList := by
  unfold MyTask.stored
  rw [if_neg (by rw [h]; exact Bool.false_ne_true)]

/-- A callback that is put on an open task is the one stored there. -/
theorem MyTask.stored_continuation {task : MyTask} (h : task.completed = false)
    (callback : Callback) :
    MyTask.stored { task with continuation := some callback } = [callback] :=
  MyTask.stored_of_open _ h

namespace Shared

/-- The callbacks that may still run, each with a weight, added up. -/
def weigh (w : Callback → Nat) (m : Shared) : Nat :=
  tally (fun task => tally w task.stored) m.tasks + tally w m.workerItems

/-- How often the work of the task `u` is still to begin, as far as the shared
    data go. -/
def pending (m : Shared) (u : Nat) : Nat :=
  m.weigh (fun callback => [callback.task].count u)

/-- How often the task `u` is still to be completed by work that has begun. -/
def ongoing (m : Shared) (u : Nat) : Nat :=
  m.weigh (fun callback => callback.inner.count u) + m.pledged.count u

/-- How often the work of the task `u` has begun. -/
def begins (m : Shared) (u : Nat) : Nat :=
  m.begun.count u

/-- How often the task `u` has been completed. -/
def done (m : Shared) (u : Nat) : Nat :=
  (m.completed u).toNat

variable {m m' : Shared} {t u : Nat} {task task' : MyTask} {w : Callback → Nat}

/-- Nothing is stored on a new task. -/
theorem weigh_create (m : Shared) : m.create.weigh w = m.weigh w := by
  unfold weigh create
  rw [tally_append]
  rfl

theorem pending_create (m : Shared) (u : Nat) : m.create.pending u = m.pending u :=
  weigh_create m

theorem ongoing_create (m : Shared) (u : Nat) : m.create.ongoing u = m.ongoing u :=
  congrArg (· + m.pledged.count u) (weigh_create m)

theorem weigh_queueUserWorkItem (m : Shared) (callback : Callback) :
    (m.queueUserWorkItem callback).weigh w = m.weigh w + w callback := by
  unfold weigh queueUserWorkItem
  dsimp only
  rw [tally_append, tally_cons, tally_nil]
  omega

/-- Writing a task replaces what is stored on it. -/
theorem weigh_write (h : m.tasks[t]? = some task) (task' : MyTask) :
    (m.write t task').weigh w + tally w task.stored = m.weigh w + tally w task'.stored := by
  have hset := tally_set (fun task => tally w task.stored) task' h
  unfold weigh write
  dsimp only at hset ⊢
  omega

/-- The tasks there are keep their numbers. -/
theorem getElem?_create (h : m.tasks[t]? = some task) : m.create.tasks[t]? = some task := by
  unfold create
  rw [List.getElem?_append_left (List.getElem?_eq_some_iff.mp h).1]
  exact h

/-- A new task is not completed. -/
theorem completed_create (m : Shared) (u : Nat) : m.create.completed u = m.completed u := by
  unfold completed create
  by_cases hu : u < m.tasks.length
  · rw [List.getElem?_append_left hu]
  · rw [List.getElem?_append_right (by omega), List.getElem?_eq_none (by omega : _ ≤ u)]
    rcases u - m.tasks.length with _ | k
    · rfl
    · rfl

/-- Writing a task decides whether it is completed. -/
theorem completed_write (h : m.tasks[t]? = some task) (task' : MyTask) (u : Nat) :
    (m.write t task').completed u = if t = u then task'.completed else m.completed u := by
  unfold completed write
  have ht : t < m.tasks.length := (List.getElem?_eq_some_iff.mp h).1
  by_cases htu : t = u
  · rw [if_pos htu, ← htu, List.getElem?_set_self ht]
    rfl
  · rw [if_neg htu, List.getElem?_set_ne htu]

/-- Registering a callback puts its weight in place of what is stored. -/
theorem weigh_continueWith_eq {callback : Nat → Callback}
    (h : m.continueWith t callback = some m') :
    ∃ task, m.tasks[t]? = some task ∧
      m'.weigh w + tally w task.stored = m.weigh w + w (callback m.tasks.length) := by
  rcases continueWith_cases h with ⟨task, htask, ⟨hcompleted, rfl⟩ | ⟨hopen, rfl⟩⟩
  · refine ⟨task, htask, ?_⟩
    have hstored : task.stored = [] := if_pos hcompleted
    rw [weigh_queueUserWorkItem, weigh_create, hstored]
    rfl
  · refine ⟨task, htask, ?_⟩
    have hwrite := weigh_write (w := w) (getElem?_create htask)
      { task with continuation := some (callback m.tasks.length) }
    rw [MyTask.stored_continuation hopen, tally_cons, tally_nil, weigh_create] at hwrite
    omega

/-- Registering a callback adds its weight at most. -/
theorem weigh_continueWith {callback : Nat → Callback}
    (h : m.continueWith t callback = some m') :
    m'.weigh w ≤ m.weigh w + w (callback m.tasks.length) := by
  rcases weigh_continueWith_eq (w := w) h with ⟨task, -, hweigh⟩
  omega

/-- Registering a callback completes nothing. -/
theorem completed_continueWith {callback : Nat → Callback}
    (h : m.continueWith t callback = some m') (u : Nat) : m'.completed u = m.completed u := by
  rcases continueWith_cases h with ⟨task, htask, ⟨_, rfl⟩ | ⟨hcompleted, rfl⟩⟩
  · exact completed_create m u
  · rw [completed_write (getElem?_create htask)]
    by_cases htu : t = u
    · rw [if_pos htu, ← htu]
      unfold completed
      rw [htask]
      rfl
    · rw [if_neg htu]
      exact completed_create m u

/-- What registering a callback does to the rest of the shared data. -/
theorem continueWith_frame {callback : Nat → Callback}
    (h : m.continueWith t callback = some m') :
    m'.tasks.length = m.tasks.length + 1 ∧ m'.pledged = m.pledged ∧ m'.begun = m.begun ∧
      m'.raised = m.raised ∧ m'.returned = m.returned ∧ m'.registered = m.registered := by
  rcases continueWith_cases h with ⟨task, htask, ⟨_, rfl⟩ | ⟨_, rfl⟩⟩
  · refine ⟨?_, rfl, rfl, rfl, rfl, rfl⟩
    change (m.tasks ++ [MyTask.new]).length = _
    rw [List.length_append]
    rfl
  · refine ⟨?_, rfl, rfl, rfl, rfl, rfl⟩
    change ((m.tasks ++ [MyTask.new]).set t _).length = _
    rw [List.length_set, List.length_append]
    rfl

/-- Completing a task hands on what was stored on it. -/
theorem weigh_setResult {v : Frame → Nat} {frames : List Frame}
    (h : m.setResult t = some (m', frames))
    (hinvoke : ∀ callback, v (.invoke callback) = w callback)
    (hunlock : v (.unlock t) = 0) : m'.weigh w + tally v frames = m.weigh w := by
  rcases setResult_cases h with ⟨task, htask, hcompleted, rfl, hcall⟩
  have hwrite := weigh_write (w := w) htask { task with completed := true, exception := none }
  have hstored : MyTask.stored { task with completed := true, exception := none } = [] := rfl
  rw [hstored, tally_nil] at hwrite
  rcases hcall with ⟨hnone, rfl⟩ | ⟨callback, hsome, rfl⟩
  · have hopen : task.stored = [] := by
      rw [task.stored_of_open hcompleted, hnone]
      rfl
    rw [hopen, tally_nil] at hwrite
    rw [tally_nil]
    exact hwrite
  · have hopen : task.stored = [callback] := by
      rw [task.stored_of_open hcompleted, hsome]
      rfl
    rw [hopen, tally_cons, tally_nil] at hwrite
    rw [tally_cons, tally_cons, tally_nil, hinvoke, hunlock]
    exact hwrite

/-- Completing a task completes no other one. -/
theorem done_setResult {frames : List Frame} (h : m.setResult t = some (m', frames)) (u : Nat) :
    m'.done u = m.done u + [t].count u := by
  rcases setResult_cases h with ⟨task, htask, hcompleted, rfl, _⟩
  unfold done
  rw [completed_write htask, List.count_singleton]
  by_cases htu : t = u
  · subst htu
    unfold completed
    rw [if_pos rfl, htask, Option.any_some, hcompleted, beq_self_eq_true]
    rfl
  · rw [if_neg htu, beq_false_of_ne htu]
    rfl

theorem begins_begin (m : Shared) (t u : Nat) :
    (m.begin t).begins u = m.begins u + [t].count u := by
  unfold begins begin
  rw [show t :: m.begun = [t] ++ m.begun from rfl, List.count_append]
  omega

theorem length_create (m : Shared) : m.create.tasks.length = m.tasks.length + 1 := by
  unfold create
  rw [List.length_append]
  rfl

end Shared

/-- How often a number occurs in a list with one cell, for a cell that may be
    the next number to be given out. -/
theorem count_next (n u : Nat) :
    [n].count u ≤ 1 ∧ (u < n ∨ n + 1 ≤ u → [n].count u = 0) := by
  rw [List.count_singleton]
  by_cases h : n = u
  · subst h
    rw [beq_self_eq_true]
    exact ⟨Nat.le_refl _, fun h => by omega⟩
  · rw [beq_false_of_ne h]
    exact ⟨Nat.zero_le _, fun _ => rfl⟩

/-- What a move does to the work of the task `u`. Work that is still to begin
    comes with a new task only; work goes on only if it has begun, and is over
    when the task is completed. -/
structure Balanced (m m' : Shared) (frame : Frame) (frames : List Frame) (u : Nat) : Prop where
  grows : m.tasks.length ≤ m'.tasks.length
  opens : m'.pending u + tally (fun f => f.pending.count u) frames + m'.begins u ≤
    m.pending u + frame.pending.count u + m.begins u + 1
  keeps : u < m.tasks.length ∨ m'.tasks.length ≤ u →
    m'.pending u + tally (fun f => f.pending.count u) frames + m'.begins u ≤
      m.pending u + frame.pending.count u + m.begins u
  goes : m'.ongoing u + tally (fun f => f.ongoing.count u) frames + m'.done u + m.begins u ≤
    m.ongoing u + frame.ongoing.count u + m.done u + m'.begins u

/-- Beginning the work of a task is no loss: it goes on. -/
theorem Balanced.begin {m m' : Shared} {t : Nat} {frame : Frame} {frames : List Frame} {u : Nat}
    (h : m' = m.begin t) (hpending : frame.pending.count u = [t].count u)
    (hframes : tally (fun f => f.pending.count u) frames = 0)
    (hongoing : tally (fun f => f.ongoing.count u) frames ≤
      frame.ongoing.count u + [t].count u) : Balanced m m' frame frames u := by
  subst h
  have hbegins := Shared.begins_begin m t u
  have hp : (m.begin t).pending u = m.pending u := rfl
  have ho : (m.begin t).ongoing u = m.ongoing u := rfl
  have hd : (m.begin t).done u = m.done u := rfl
  refine ⟨Nat.le_refl _, ?_, ?_, ?_⟩
  · omega
  · intro _
    omega
  · omega

/-- The work of a new task is in one new callback, and nothing else changes
    hands. -/
theorem Balanced.register {m m' : Shared} {frame : Frame} {frames : List Frame} {u : Nat}
    (hlength : m'.tasks.length = m.tasks.length + 1) (hbegins : m'.begins u = m.begins u)
    (hpending : m'.pending u + tally (fun f => f.pending.count u) frames ≤
      m.pending u + frame.pending.count u + [m.tasks.length].count u)
    (hongoing : m'.ongoing u + tally (fun f => f.ongoing.count u) frames ≤
      m.ongoing u + frame.ongoing.count u)
    (hdone : m'.done u = m.done u) : Balanced m m' frame frames u := by
  have hnext := count_next m.tasks.length u
  refine ⟨by omega, ?_, ?_, ?_⟩
  · omega
  · intro hu
    have hzero := hnext.2 (by omega)
    omega
  · omega

/-- The callback that is registered has the work of a new task, and the inner
    work of the calls that are over. -/
theorem Balanced.continueWith {m m' : Shared} {t : Nat} {callback : Nat → Callback}
    {frame : Frame} {frames : List Frame} {u : Nat} (h : m.continueWith t callback = some m')
    (htask : ∀ new, (callback new).task = new)
    (hpending : tally (fun f => f.pending.count u) frames ≤ frame.pending.count u)
    (hongoing : tally (fun f => f.ongoing.count u) frames +
      (callback m.tasks.length).inner.count u ≤ frame.ongoing.count u) :
    Balanced m m' frame frames u := by
  rcases Shared.continueWith_frame h with ⟨hlength, hpledged, hbegun, -, -, -⟩
  have hp : m'.pending u ≤ m.pending u + [(callback m.tasks.length).task].count u :=
    Shared.weigh_continueWith h
  rw [htask] at hp
  have ho : m'.ongoing u ≤ m.ongoing u + (callback m.tasks.length).inner.count u := by
    have hweigh := Shared.weigh_continueWith (w := fun callback => callback.inner.count u) h
    unfold Shared.ongoing
    rw [hpledged]
    omega
  refine .register hlength (congrArg (List.count u) hbegun) ?_ ?_
    (congrArg Bool.toNat (Shared.completed_continueWith h u))
  · omega
  · omega

/-- A new task whose work begins at once is in one call or has been promised. -/
theorem Balanced.create {m m' : Shared} {frame : Frame} {frames : List Frame} {u : Nat}
    (hlength : m'.tasks.length = m.tasks.length + 1)
    (hpending : m'.pending u + tally (fun f => f.pending.count u) frames =
      m.pending u + frame.pending.count u)
    (hbegins : m'.begins u = m.begins u + [m.tasks.length].count u)
    (hongoing : m'.ongoing u + tally (fun f => f.ongoing.count u) frames =
      m.ongoing u + frame.ongoing.count u + [m.tasks.length].count u)
    (hdone : m'.done u = m.done u) : Balanced m m' frame frames u := by
  have hnext := count_next m.tasks.length u
  refine ⟨by omega, ?_, ?_, ?_⟩
  · omega
  · intro hu
    have hzero := hnext.2 (by omega)
    omega
  · omega

/-- A move without a new task, and without work that begins, loses work or
    hands it on. -/
theorem Balanced.keep {m m' : Shared} {frame : Frame} {frames : List Frame} {u : Nat}
    (hlength : m'.tasks.length = m.tasks.length) (hbegins : m'.begins u = m.begins u)
    (hpending : m'.pending u + tally (fun f => f.pending.count u) frames ≤
      m.pending u + frame.pending.count u)
    (hongoing : m'.ongoing u + tally (fun f => f.ongoing.count u) frames + m'.done u ≤
      m.ongoing u + frame.ongoing.count u + m.done u) : Balanced m m' frame frames u := by
  refine ⟨by omega, ?_, ?_, ?_⟩
  · omega
  · intro _
    omega
  · omega

/-- User code throws, and the work of its task is lost. -/
theorem Balanced.throws (m : Shared) (t : Nat) (exception : Exception) {frame : Frame} (u : Nat) :
    Balanced m (m.caught t exception) frame [] u := by
  refine .keep rfl rfl ?_ ?_
  · change m.pending u + 0 ≤ _
    omega
  · change m.ongoing u + 0 + m.done u ≤ _
    omega

/-- What a move does to the work of any task. -/
theorem Move.balanced {m m' : Shared} {frame : Frame} {act : Act} {frames : List Frame}
    (h : Move m frame act m' frames) (u : Nat) : Balanced m m' frame frames u := by
  cases h with
  | take item items hitems =>
      refine .keep rfl rfl ?_ ?_
      · simp only [Shared.pending, Shared.weigh, hitems, tally_cons, tally_nil, Frame.pending,
          List.count_nil]
        omega
      · simp only [Shared.ongoing, Shared.weigh, hitems, tally_cons, tally_nil, Frame.ongoing,
          List.count_nil]
        change _ + m.done u ≤ _ + m.done u
        omega
  | invokeUser t => exact .begin rfl rfl rfl (by simp [Frame.ongoing])
  | invokeForward t outer next task htask hnone =>
      refine .begin rfl rfl rfl ?_
      simp [Frame.ongoing, Callback.inner, Action.inner]
  | invokeForwardException t outer next task exception htask hsome =>
      refine .begin rfl rfl rfl ?_
      simp [Frame.ongoing, Callback.inner, Action.inner]
  | invokeMoveNext t outer =>
      refine .begin rfl rfl rfl ?_
      simp [Frame.ongoing, Callback.inner, Action.inner]
  | invokeFunc t => exact .begin rfl rfl rfl (by simp [Frame.ongoing])
  | run frame huser =>
      -- The callback that is queued has the work of the new task, and no other.
      have hp : m.run.pending u = m.create.pending u + [m.tasks.length].count u :=
        Shared.weigh_queueUserWorkItem m.create (.action m.tasks.length .user)
      have ho : m.run.ongoing u = m.create.ongoing u :=
        congrArg (· + m.pledged.count u)
          (Shared.weigh_queueUserWorkItem m.create (.action m.tasks.length .user))
      rw [Shared.pending_create] at hp
      rw [Shared.ongoing_create] at ho
      refine .register (Shared.length_create m) rfl ?_ ?_
        (congrArg Bool.toNat (Shared.completed_create m u))
      · rw [tally_cons, tally_nil, hp]
        omega
      · rw [tally_cons, tally_nil, ho]
        omega
  | continueWith frame t m₁ huser hm =>
      have hregister : Balanced m m₁ frame [frame] u :=
        .continueWith hm (fun _ => rfl) (by simp) (by simp [Callback.inner, Action.inner])
      exact ⟨hregister.grows, hregister.opens, hregister.keeps, hregister.goes⟩
  | continueWithFunc frame t m' huser hm =>
      exact .continueWith hm (fun _ => rfl) (by simp) (by simp [Callback.inner])
  | iterate frame huser =>
      refine .create (Shared.length_create m) ?_ (Shared.begins_begin m.create _ u) ?_
        (congrArg Bool.toNat (Shared.completed_create m u))
      · rw [tally_cons, tally_cons, tally_nil]
        change m.create.pending u + (0 + _) = _
        rw [Shared.pending_create]
        omega
      · rw [tally_cons, tally_cons, tally_nil]
        change m.create.ongoing u + ([m.tasks.length].count u + _) = _
        rw [Shared.ongoing_create]
        omega
  | new frame huser =>
      refine .create (Shared.length_create m) ?_ (Shared.begins_begin m.create _ u) ?_
        (congrArg Bool.toNat (Shared.completed_create m u))
      · rw [tally_cons, tally_nil]
        change m.create.pending u + _ = _
        rw [Shared.pending_create]
        rfl
      -- The new task is among those whose `SetResult` will be called.
      · rw [tally_cons, tally_nil]
        change m.create.weigh _ + (m.tasks.length :: m.pledged).count u + _ = _
        rw [Shared.weigh_create, show m.tasks.length :: m.pledged = [m.tasks.length] ++ m.pledged
          from rfl, List.count_append]
        unfold Shared.ongoing
        omega
  | setResult frame t huser ht =>
      refine .keep rfl rfl ?_ ?_
      · rw [tally_cons, tally_cons, tally_nil]
        change m.pending u + (0 + _) ≤ _
        omega
      -- The call that is made takes the place of the promise.
      · have herase := (List.perm_cons_erase ht).count_eq u
        rw [show t :: m.pledged.erase t = [t] ++ m.pledged.erase t from rfl,
          List.count_append] at herase
        rw [tally_cons, tally_cons, tally_nil]
        unfold Shared.ongoing
        change _ + (m.pledged.erase t).count u + ([t].count u + _) + m.done u ≤ _
        rw [herase]
        change m.weigh _ + _ + _ + _ ≤ m.weigh _ + _ + _ + _
        omega
  | returns t => exact .keep rfl rfl (by simp [Frame.pending]) (by simp [Frame.ongoing])
  | returnsTask t next m' hm =>
      have hregister : Balanced { m with returned := (t, next) :: m.returned } m' (.func t) [] u :=
        .continueWith hm (fun _ => rfl) (by simp)
          (by simp [Callback.inner, Action.inner, Frame.ongoing])
      exact ⟨hregister.grows, hregister.opens, hregister.keeps, hregister.goes⟩
  | yields t next m' hm =>
      exact .continueWith hm (fun _ => rfl) (by simp)
        (by simp [Callback.inner, Action.inner, Frame.ongoing])
  | ends t => exact .keep rfl rfl (by simp [Frame.pending]) (by simp [Frame.ongoing])
  | actionThrows t exception => exact .throws m t exception u
  | funcThrows t exception => exact .throws m t exception u
  | enumeratorThrows t exception => exact .throws m t exception u
  | complete t m' frames hm =>
      have hp := Shared.weigh_setResult (w := fun callback => [callback.task].count u)
        (v := fun f => f.pending.count u) hm (fun _ => rfl) rfl
      have ho := Shared.weigh_setResult (w := fun callback => callback.inner.count u)
        (v := fun f => f.ongoing.count u) hm (fun _ => rfl) rfl
      have hdone := Shared.done_setResult hm u
      rcases Shared.setResult_cases hm with ⟨task, htask, -, rfl, -⟩
      refine .keep (List.length_set ..) rfl ?_ ?_
      · unfold Shared.pending
        omega
      · unfold Shared.ongoing
        change _ + m.pledged.count u + _ + _ ≤ _ + _ + [t].count u + _
        omega
  | leave t => exact .keep rfl rfl (by simp [Frame.pending]) (by simp [Frame.ongoing])

/-- What a move adds to the notes that are kept of a run: which work has
    begun, which tasks are made by hand, what was raised and what was
    registered. -/
structure Noted (m m' : Shared) (act : Act) (frames : List Frame) : Prop where
  begun : m'.begun = m.begun ∨
    ∃ t, m'.begun = t :: m.begun ∧ (act = .new ∨ ∃ f ∈ frames, t ∈ f.tasks)
  pledged : m'.pledged = m.pledged ∨ act = .new ∨ ∃ t ∈ m.pledged, act = .setResult t
  raised : m'.raised = m.raised ∨ ∃ exception, act = .throws exception
  registered : m'.registered = m.registered ∨
    ∃ t, act = .continueWith t ∧ m'.registered = (t, m.tasks.length) :: m.registered

/-- Work begins in a call, and nothing else is noted. -/
theorem Noted.begin (m : Shared) {t : Nat} {act : Act} {frames : List Frame} {f : Frame}
    (hf : f ∈ frames) (ht : t ∈ f.tasks) : Noted m (m.begin t) act frames :=
  ⟨.inr ⟨t, rfl, .inr ⟨f, hf, ht⟩⟩, .inl rfl, .inl rfl, .inl rfl⟩

/-- The library registers a callback without a note. -/
theorem Noted.continueWith {m m' : Shared} {t : Nat} {callback : Nat → Callback} {act : Act}
    {frames : List Frame} (h : m.continueWith t callback = some m') : Noted m m' act frames := by
  rcases Shared.continueWith_frame h with ⟨-, hpledged, hbegun, hraised, -, hregistered⟩
  exact ⟨.inl hbegun, .inl hpledged, .inl hraised, .inl hregistered⟩

/-- What a move adds to the notes. -/
theorem Move.noted {m m' : Shared} {frame : Frame} {act : Act} {frames : List Frame}
    (h : Move m frame act m' frames) : Noted m m' act frames := by
  cases h with
  | invokeUser t => exact .begin m List.mem_cons_self List.mem_cons_self
  | invokeForward t outer next task htask hnone =>
      exact .begin m (List.mem_cons_of_mem _ List.mem_cons_self) List.mem_cons_self
  | invokeForwardException t outer next task exception htask hsome =>
      exact .begin m List.mem_cons_self List.mem_cons_self
  | invokeMoveNext t outer =>
      exact .begin m (List.mem_cons_of_mem _ List.mem_cons_self) List.mem_cons_self
  | invokeFunc t => exact .begin m List.mem_cons_self List.mem_cons_self
  | continueWith frame t m₁ huser hm =>
      -- Only a registration of the user is noted.
      rcases Shared.continueWith_frame hm with ⟨-, hpledged, hbegun, hraised, -, hregistered⟩
      refine ⟨.inl hbegun, .inl hpledged, .inl hraised, .inr ⟨t, rfl, ?_⟩⟩
      exact congrArg ((t, m.tasks.length) :: ·) hregistered
  | continueWithFunc frame t m' huser hm => exact .continueWith hm
  | returnsTask t next m' hm =>
      have hnoted :
          Noted { m with returned := (t, next) :: m.returned } m' (.returnsTask next) [] :=
        .continueWith hm
      exact ⟨hnoted.begun, hnoted.pledged, hnoted.raised, hnoted.registered⟩
  | yields t next m' hm => exact .continueWith hm
  | iterate frame huser =>
      refine ⟨.inr ⟨m.tasks.length, rfl, .inr ⟨_, List.mem_cons_self, ?_⟩⟩, .inl rfl, .inl rfl,
        .inl rfl⟩
      exact List.mem_cons_self
  | new frame huser =>
      exact ⟨.inr ⟨m.tasks.length, rfl, .inl rfl⟩, .inr (.inl rfl), .inl rfl, .inl rfl⟩
  | setResult frame t huser ht =>
      exact ⟨.inl rfl, .inr (.inr ⟨t, ht, rfl⟩), .inl rfl, .inl rfl⟩
  | complete t m' frames hm =>
      rcases Shared.setResult_cases hm with ⟨task, htask, -, rfl, -⟩
      exact ⟨.inl rfl, .inl rfl, .inl rfl, .inl rfl⟩
  | actionThrows t exception | funcThrows t exception | enumeratorThrows t exception =>
      exact ⟨.inl rfl, .inl rfl, .inr ⟨exception, rfl⟩, .inl rfl⟩
  | take | run | returns | ends | leave => exact ⟨.inl rfl, .inl rfl, .inl rfl, .inl rfl⟩

/-- Work that has begun stays so. -/
theorem Move.begun_mono {m m' : Shared} {frame : Frame} {act : Act} {frames : List Frame}
    (h : Move m frame act m' frames) {u : Nat} (hu : u ∈ m.begun) : u ∈ m'.begun := by
  rcases h.noted.begun with hbegun | ⟨t, hbegun, -⟩
  · rw [hbegun]
    exact hu
  · rw [hbegun]
    exact List.mem_cons_of_mem t hu

/-- A registration is not forgotten. -/
theorem Move.registered_mono {m m' : Shared} {frame : Frame} {act : Act} {frames : List Frame}
    {p : Nat × Nat} (h : Move m frame act m' frames) (hp : p ∈ m.registered) :
    p ∈ m'.registered := by
  rcases h.noted.registered with hregistered | ⟨t, -, hregistered⟩
  · rw [hregistered]
    exact hp
  · rw [hregistered]
    exact List.mem_cons_of_mem _ hp

namespace State

/-- How often the work of the task `u` is still to begin. -/
def pending (s : State) (u : Nat) : Nat :=
  s.shared.pending u + tally (tally (fun f => f.pending.count u)) s.threads

/-- How often the task `u` is still to be completed by work that has begun. -/
def ongoing (s : State) (u : Nat) : Nat :=
  s.shared.ongoing u + tally (tally (fun f => f.ongoing.count u)) s.threads

end State

/-- Work that begins does so once, a task is completed by work that has begun,
    and what is not a task yet has no work. -/
structure Accounted (s : State) : Prop where
  once (u : Nat) : s.pending u + s.shared.begins u ≤ 1
  works (u : Nat) : s.ongoing u + s.shared.done u ≤ s.shared.begins u
  fresh (u : Nat) : s.shared.tasks.length ≤ u → s.pending u + s.shared.begins u = 0

/-- A list of idle threads carries no work. -/
theorem tally_idle {w : Frame → Nat} (hclient : w .client = 0) (hworker : w .worker = 0)
    {threads : List (List Frame)} (h : ∀ stack ∈ threads, Idle stack) :
    tally (tally w) threads = 0 := by
  by_contra hne
  rcases (tally_pos_iff _ _).mp (Nat.pos_of_ne_zero hne) with ⟨stack, hstack, hpos⟩
  rcases h stack hstack with rfl | rfl
  · rw [tally_cons, tally_nil, hclient] at hpos
    omega
  · rw [tally_cons, tally_nil, hworker] at hpos
    omega

/-- A thread whose innermost call is replaced carries its work instead. -/
theorem tally_threads (w : Frame → Nat) {threads : List (List Frame)} {th : Nat} {frame : Frame}
    {rest : List Frame} (h : threads[th]? = some (frame :: rest)) (frames : List Frame) :
    tally (tally w) (threads.set th (frames ++ rest)) + w frame =
      tally (tally w) threads + tally w frames := by
  have hset := tally_set (tally w) (frames ++ rest) h
  rw [tally_cons, tally_append] at hset
  omega

/-- Nothing has happened, so no task has work. -/
theorem Accounted.initial {s : State} (h : Initial s) : Accounted s := by
  rcases h with ⟨hshared, hidle⟩
  -- No thread runs anything yet, so all counts are 0.
  have hpending : ∀ u, s.pending u = 0 := by
    intro u
    unfold State.pending
    rw [hshared, tally_idle rfl rfl hidle]
    rfl
  have hongoing : ∀ u, s.ongoing u = 0 := by
    intro u
    unfold State.ongoing
    rw [hshared, tally_idle rfl rfl hidle]
    rfl
  have hbegins : ∀ u, s.shared.begins u = 0 := by
    intro u
    rw [hshared]
    rfl
  have hdone : ∀ u, s.shared.done u = 0 := by
    intro u
    rw [hshared]
    rfl
  refine ⟨?_, ?_, ?_⟩
  · intro u
    have hp := hpending u
    have hb := hbegins u
    omega
  · intro u
    have ho := hongoing u
    have hd := hdone u
    omega
  · intro u _
    rw [hpending, hbegins]

/-- What a step does to the work of the task `u`, wherever it is. -/
structure Conserved (s s' : State) (u : Nat) : Prop where
  grows : s.shared.tasks.length ≤ s'.shared.tasks.length
  opens : s'.pending u + s'.shared.begins u ≤ s.pending u + s.shared.begins u + 1
  keeps : u < s.shared.tasks.length ∨ s'.shared.tasks.length ≤ u →
    s'.pending u + s'.shared.begins u ≤ s.pending u + s.shared.begins u
  goes : s'.ongoing u + s'.shared.done u + s.shared.begins u ≤
    s.ongoing u + s.shared.done u + s'.shared.begins u

/-- A step hands work on, or loses it. -/
theorem conserved {s s' : State} {label : Nat × Act} (hstep : step s label = some s') (u : Nat) :
    Conserved s s' u := by
  rcases label with ⟨th, act⟩
  rcases step_cases hstep with ⟨frame, rest, m', frames, hthread, -, hmove, rfl⟩
  have hp := tally_threads (fun f => f.pending.count u) hthread frames
  have ho := tally_threads (fun f => f.ongoing.count u) hthread frames
  rcases hmove.balanced u with ⟨hgrows, hopens, hkeeps, hgoes⟩
  refine ⟨hgrows, ?_, ?_, ?_⟩
  · unfold State.pending
    dsimp only
    omega
  · intro hu
    have hkept := hkeeps hu
    unfold State.pending
    dsimp only
    omega
  · unfold State.ongoing
    dsimp only
    omega

/-- Work is not there twice after a step, since only the work of a new task is
    added, and a new task had none. -/
theorem Accounted.step {s s' : State} {label : Nat × Act} (h : Accounted s)
    (hstep : step s label = some s') : Accounted s' := by
  refine ⟨?_, ?_, ?_⟩
  · intro u
    rcases conserved hstep u with ⟨-, hopens, hkeeps, -⟩
    have honce := h.once u
    by_cases hnew : u < s.shared.tasks.length
    · have hkept := hkeeps (.inl hnew)
      omega
    · have hzero := h.fresh u (by omega)
      omega
  · intro u
    rcases conserved hstep u with ⟨-, -, -, hgoes⟩
    have hworks := h.works u
    omega
  · intro u hu
    rcases conserved hstep u with ⟨hgrows, -, hkeeps, -⟩
    have hkept := hkeeps (.inr hu)
    have hzero := h.fresh u (by omega)
    omega

/-- No work is ever there twice. -/
theorem accounted {s : State} (h : system.Reachable s) : Accounted s :=
  h.invariant Accounted (fun _ => Accounted.initial) (fun _ _ _ => Accounted.step)

/-- No work begins twice. -/
theorem begins_le_one {s : State} (h : system.Reachable s) (u : Nat) : s.shared.begins u ≤ 1 := by
  have honce := (accounted h).once u
  omega

/-- A completed task is one whose work has begun, once. -/
theorem begins_of_completed {s : State} (h : system.Reachable s) {u : Nat}
    (hu : s.shared.completed u = true) : s.shared.begins u = 1 := by
  have hdone : s.shared.done u = 1 := by
    unfold Shared.done
    rw [hu]
    rfl
  have hworks := (accounted h).works u
  have honce := begins_le_one h u
  omega

/-- Work that some call goes on with has begun. -/
theorem begun_of_calls {s : State} (hacc : Accounted s) {u : Nat}
    (h : Calls s.threads (fun frame => u ∈ frame.ongoing)) : u ∈ s.shared.begun := by
  rcases h with ⟨stack, hstack, frame, hframe, hu⟩
  have hthreads := le_tally (tally (fun f : Frame => f.ongoing.count u)) hstack
  have hcell := le_tally (fun f : Frame => f.ongoing.count u) hframe
  have hpos : 0 < frame.ongoing.count u := List.count_pos_iff.mpr hu
  have hworks := hacc.works u
  unfold State.ongoing Shared.begins at hworks
  exact List.count_pos_iff.mp (by omega)

/-- Work that the innermost call of a thread goes on with has begun. -/
theorem begun_of_ongoing {s : State} (hacc : Accounted s) {th : Nat} {frame : Frame}
    {rest : List Frame} (hthread : s.threads[th]? = some (frame :: rest)) {u : Nat}
    (hu : u ∈ frame.ongoing) : u ∈ s.shared.begun :=
  begun_of_calls hacc
    ⟨frame :: rest, List.mem_of_getElem? hthread, frame, List.mem_cons_self, hu⟩

/-- A call of `SetResult` that is about to complete a task can do so. -/
theorem setResult_isSome {s : State} (h : system.Reachable s) {th t : Nat} {rest : List Frame}
    (hthread : s.threads[th]? = some (.setResult t :: rest)) :
    (s.shared.setResult t).isSome = true := by
  -- The thread is about to complete the task.
  have hongoing : 0 < s.ongoing t := by
    have hstack := le_tally (tally (fun f : Frame => f.ongoing.count t))
      (List.mem_of_getElem? hthread)
    have hframe : ([t] : List Nat).count t = 1 := List.count_singleton_self
    rw [tally_cons] at hstack
    unfold State.ongoing
    change [t].count t + _ ≤ _ at hstack
    omega
  have hworks := (accounted h).works t
  have honce := begins_le_one h t
  have hfresh := (accounted h).fresh t
  have ht : t < s.shared.tasks.length := by
    by_contra hge
    have hzero := hfresh (by omega)
    omega
  have htask : s.shared.tasks[t]? = some s.shared.tasks[t] := List.getElem?_eq_getElem ht
  -- A task that has been completed would be counted twice, and each is begun once.
  have hcompleted : ¬ s.shared.tasks[t].completed = true := by
    intro hdone
    have hone : s.shared.done t = 1 := by
      unfold Shared.done Shared.completed
      rw [htask, Option.any_some, hdone]
      rfl
    omega
  unfold Shared.setResult Shared.complete
  rw [htask]
  dsimp only
  rw [if_neg hcompleted]
  rfl

end AwaitAsync

end BlogSample
