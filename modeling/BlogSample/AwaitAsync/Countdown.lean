import BlogSample.AwaitAsync.WaitAll
import BlogSample.AwaitAsync.Waiting
import Mathlib.Data.List.Nodup

/-!
# The Countdown of `WaitAll`

Each run of the continuation belongs to one listed task, and begins only when
that task has been completed: before that its callback is stored there, and
nowhere else. So the counter is the number of runs that have not decremented
it, and when it reads zero all listed tasks are completed. One run reads zero,
since none begins twice, so `SetResult` is called once.

When every listed task is completed and nothing is left to run, every run has
returned, and the last one to decrement has called `SetResult`.

## Main definitions

* `Stage`: Where the run of a continuation is.
* `dues`: The runs that are about to call `SetResult`.
* `Sound`: What holds of a call at any time.

## Theorems

* `Stage.step`: A run goes through its stages.
* `Sound.moves`: What holds of a call goes on to hold.
* `waitAll_spec`: The new task is completed with the last listed one.
-/

namespace BlogSample

namespace AwaitAsync

open Transition

variable {m m' : Shared} {frame : Frame} {act : Act} {frames : List Frame}

/-- A registration elsewhere leaves a task as it is. -/
theorem Shared.getElem?_continueWith {y x : Nat} {callback : Nat → Callback}
    (hm : m.continueWith y callback = some m') {task : MyTask} (htask : m.tasks[x]? = some task)
    (hyx : y ≠ x) : m'.tasks[x]? = some task := by
  rcases continueWith_cases hm with ⟨old, hold, ⟨_, rfl⟩ | ⟨_, rfl⟩⟩
  · exact getElem?_create htask
  · unfold Shared.write
    rw [List.getElem?_set_ne hyx]
    exact getElem?_create htask

/-- A move leaves a task as it is, if it registers nothing there and does not
    complete it. -/
theorem Move.task (h : Move m frame act m' frames) {x : Nat} {task : MyTask}
    (hx : act.registersOn ≠ some x) (htask : m.tasks[x]? = some task) :
    m'.tasks[x]? = some task ∨ m.setResult x = some (m', frames) := by
  have hne : ∀ {y : Nat}, act.registersOn = some y → y ≠ x := by
    intro y hy hyx
    exact hx (hy.trans (congrArg some hyx))
  cases h with
  | run | iterate | new => exact .inl (Shared.getElem?_create htask)
  | continueWith frame y m₁ huser hm =>
      have hsame := Shared.getElem?_continueWith hm htask (hne rfl)
      exact .inl hsame
  | continueWithFunc frame y m' huser hm =>
      exact .inl (Shared.getElem?_continueWith hm htask (hne rfl))
  | returnsTask y next m' hm => exact .inl (Shared.getElem?_continueWith hm htask (hne rfl))
  | yields y next m' hm => exact .inl (Shared.getElem?_continueWith hm htask (hne rfl))
  | complete y m' frames hm =>
      by_cases hyx : y = x
      · exact .inr (hyx ▸ hm)
      · rcases Shared.setResult_cases hm with ⟨old, hold, -, rfl, -⟩
        left
        unfold Shared.write
        rw [List.getElem?_set_ne hyx]
        exact htask
  | take | invokeUser | invokeForward | invokeForwardException | invokeMoveNext | invokeFunc
  | setResult | returns | ends | actionThrows | funcThrows | enumeratorThrows | leave =>
      exact .inl htask

/-- `SetResult` has completed the task. -/
theorem Shared.completed_of_setResult {x : Nat} (h : m.setResult x = some (m', frames)) :
    m'.completed x = true := by
  rcases setResult_cases h with ⟨task, htask, -, rfl, -⟩
  rw [completed_write htask, if_pos rfl]

/-- A callback that is stored stays where it is, if nothing is registered there,
    until the task is completed, and then it is about to run. -/
theorem Move.kept_or_invoked (h : Move m frame act m' frames) {x : Nat} {task : MyTask}
    {callback : Callback} (hx : act.registersOn ≠ some x) (htask : m.tasks[x]? = some task)
    (hstored : task.continuation = some callback) :
    m'.tasks[x]? = some task ∨ (m'.completed x = true ∧ .invoke callback ∈ frames) := by
  rcases h.task hx htask with hsame | hset
  · exact .inl hsame
  · right
    refine ⟨Shared.completed_of_setResult hset, ?_⟩
    rcases Shared.setResult_cases hset with ⟨old, hold, -, -, hcall⟩
    rw [htask, Option.some.injEq] at hold
    subst hold
    rcases hcall with ⟨hnone, -⟩ | ⟨stored, hsome, rfl⟩
    · rw [hstored] at hnone
      cases hnone
    · rw [hstored, Option.some.injEq] at hsome
      rw [hsome]
      exact List.mem_cons_self

/-- The same of a user's action. -/
theorem Move.stored_or_invoked (h : Move m frame act m' frames) {x u : Nat}
    (hx : act.registersOn ≠ some x) (hu : m.Stored x u) :
    m'.Stored x u ∨ (m'.completed x = true ∧ .invoke (.action u .user) ∈ frames) := by
  rcases hu with ⟨task, htask, hopen, hstored⟩
  rcases h.kept_or_invoked hx htask hstored with hsame | hinvoked
  · exact .inl ⟨task, hsame, hopen, hstored⟩
  · exact .inr hinvoked

/-- A task made by hand waits for the call of `SetResult`. -/
theorem Move.pledged_mem (h : Move m frame act m' frames) {t : Nat} (ht : t ∈ m.pledged)
    (hact : act ≠ .setResult t) : t ∈ m'.pledged := by
  rcases h.noted.pledged with hsame | hnew | ⟨y, hy, hset⟩
  · rw [hsame]
    exact ht
  · subst hnew
    cases h with
    | new => exact List.mem_cons_of_mem _ ht
  · subst hset
    cases h with
    | setResult =>
        have hne : t ≠ y := fun hty => hact (congrArg Act.setResult hty.symm)
        exact (List.mem_erase_of_ne hne).mpr ht

/-- Work in a place is not begun. -/
theorem not_begun_of_pending {s : State} (hacc : Accounted s) {u : Nat} (h : 0 < s.pending u) :
    u ∉ s.shared.begun := by
  intro hu
  have hpos : 0 < s.shared.begins u := List.count_pos_iff.mpr hu
  have honce := hacc.once u
  omega

/-- The work of an action that is stored somewhere has not begun. -/
theorem not_begun_of_stored {s : State} (hacc : Accounted s) {x u : Nat}
    (h : s.shared.Stored x u) : u ∉ s.shared.begun := by
  refine not_begun_of_pending hacc ?_
  rcases h with ⟨task, htask, hopen, hstored⟩
  have hcell := le_tally (fun task : MyTask =>
    tally (fun callback : Callback => [callback.task].count u) task.stored)
    (List.mem_of_getElem? htask)
  have hone : tally (fun callback : Callback => [callback.task].count u) task.stored = 1 := by
    rw [task.stored_of_open hopen, hstored]
    exact List.count_singleton_self
  unfold State.pending Shared.pending Shared.weigh
  omega

namespace WaitAll

/-- The run of the continuation on `x` whose task is `u` has not begun. -/
def Before (s : State) (x u : Nat) : Prop :=
  s.shared.Stored x u ∨ Callback.action u .user ∈ s.shared.workerItems ∨
    Calls s.threads (· = .invoke (.action u .user))

/-- `SetResult` of the task `u` has been called. -/
def After (s : State) (u : Nat) : Prop :=
  s.shared.completed u = true ∨ Calls s.threads (· = .setResult u)

/-- Where the run of the continuation on `x` whose task is `u` is, by what it
    does next. -/
inductive Stage (s : State) (x u : Nat) : Point → Prop
  | before (h : Before s x u) : Stage s x u .decrement
  | during (point : Point) (h : Calls s.threads (· = .action u)) : Stage s x u point
  | after (h : After s u) : Stage s x u .returns

variable {s s' : State} {th : Nat} {x u : Nat}

/-- A run that has not begun waits, or begins. -/
theorem Before.step (hstep : AwaitAsync.step s (th, act) = some s')
    (hx : act.registersOn ≠ some x) (h : Before s x u) :
    Before s' x u ∨ Calls s'.threads (· = .action u) := by
  rcases step_cases hstep with ⟨frame, rest, m', frames, hthread, -, hmove, rfl⟩
  have hinvoked : .invoke (.action u .user) ∈ frames →
      Before { shared := m', threads := s.threads.set th (frames ++ rest) } x u :=
    fun hf => .inr (.inr (calls_of_frames hthread ⟨_, hf, rfl⟩))
  rcases h with hstored | hqueued | hcalls
  · rcases hmove.stored_or_invoked hx hstored with hstored | ⟨-, hf⟩
    · exact .inl (.inl hstored)
    · exact .inl (hinvoked hf)
  · rcases hmove.queued hqueued with hqueued | hf
    · exact .inl (.inr (.inl hqueued))
    · exact .inl (hinvoked hf)
  · rcases calls_move hthread frames hcalls with rfl | hcalls
    · cases hmove with
      | invokeUser => exact .inr (calls_of_frames hthread ⟨_, List.mem_cons_self, rfl⟩)
      | run _ huser | continueWith _ _ _ huser | continueWithFunc _ _ _ huser | iterate _ huser
      | new _ huser | setResult _ _ huser => cases huser
    · exact .inl (.inr (.inr hcalls))

/-- A call of `SetResult` completes the task. -/
theorem After.step (hstep : AwaitAsync.step s (th, act) = some s') (h : After s u) :
    After s' u := by
  rcases step_cases hstep with ⟨frame, rest, m', frames, hthread, -, hmove, rfl⟩
  rcases h with hdone | hcalls
  · exact .inl (hmove.completed hdone)
  · rcases calls_move hthread frames hcalls with rfl | hcalls
    · cases hmove with
      | complete _ _ _ hm => exact .inl (Shared.completed_of_setResult hm)
      | run _ huser | continueWith _ _ _ huser | continueWithFunc _ _ _ huser | iterate _ huser
      | new _ huser | setResult _ _ huser => cases huser
    · exact .inr hcalls

/-- A run stays in its stage, or begins. -/
theorem Stage.step (hstep : AwaitAsync.step s (th, act) = some s')
    (hx : act.registersOn ≠ some x)
    (hduring : Calls s.threads (· = .action u) → Calls s'.threads (· = .action u))
    {point : Point} (h : Stage s x u point) : Stage s' x u point := by
  cases h with
  | before h =>
      rcases h.step hstep hx with h | h
      · exact .before h
      · exact .during _ h
  | during _ h => exact .during _ (hduring h)
  | after h => exact .after (h.step hstep)

/-- A run that is in a stage after the first has begun. -/
theorem Stage.begun (hreach : AwaitAsync.system.Reachable s) {point : Point}
    (h : Stage s x u point) : Before s x u ∧ point = .decrement ∨ u ∈ s.shared.begun := by
  have hacc := accounted hreach
  have hcalled : ∀ frame : Frame, u ∈ frame.ongoing → Calls s.threads (· = frame) →
      u ∈ s.shared.begun := by
    intro frame hu hcalls
    rcases hcalls with ⟨stack, hstack, f, hf, rfl⟩
    exact begun_of_calls hacc ⟨stack, hstack, f, hf, hu⟩
  cases h with
  | before h => exact .inl ⟨h, rfl⟩
  | during _ h => exact .inr (hcalled (.action u) (List.mem_singleton_self u) h)
  | after h =>
      rcases h with hdone | hcalls
      · have hbegins := begins_of_completed hreach hdone
        unfold Shared.begins at hbegins
        exact .inr (List.count_pos_iff.mp (by omega))
      · exact .inr (hcalled (.setResult u) (List.mem_singleton_self u) hcalls)

/-- A run begins only if it has not begun. -/
theorem not_begun_of_entered (hacc : Accounted s) {label : Nat × Act}
    (h : entered s label = some u) : u ∉ s.shared.begun := by
  refine not_begun_of_pending hacc ?_
  unfold entered at h
  split at h
  · rename_i u' rest _ hthread
    cases h
    have hstack := le_tally (tally (fun f : Frame => f.pending.count u))
      (List.mem_of_getElem? hthread)
    have hframe : ([u] : List Nat).count u = 1 := List.count_singleton_self
    rw [tally_cons] at hstack
    unfold State.pending
    change [u].count u + _ ≤ _ at hstack
    omega
  · cases h

/-- Has a run of the continuation decremented the counter? -/
def Point.passed : Point → Nat
  | .decrement => 0
  | .setResult | .returns => 1

/-- Is a run of the continuation about to call `SetResult`? -/
def Point.due : Point → Nat
  | .setResult => 1
  | .decrement | .returns => 0

theorem Point.passed_le_one (point : Point) : point.passed ≤ 1 := by
  cases point <;> decide

/-- The runs that have decremented the counter. -/
def Progress.passes (p : Progress) : Nat :=
  tally (fun q => (p.point q.2).passed) p.inner

/-- The runs that are about to call `SetResult`. -/
def Progress.dues (p : Progress) : Nat :=
  tally (fun q => (p.point q.2).due) p.inner

/-- What holds of a call at any time. -/
structure Sound (c : Call) (p : Progress) : Prop where
  reachable : AwaitAsync.system.Reachable p.machine
  distinct : c.tasks.Nodup
  split : p.inner.map Prod.fst ++ p.todo = c.tasks
  inners : (p.inner.map Prod.snd).Nodup
  fresh : ∀ u ∈ p.inner.map Prod.snd, u < p.machine.shared.tasks.length
  point : ∀ u, p.machine.shared.tasks.length ≤ u → p.point u = .decrement
  -- Nothing is stored on the tasks that are still to be registered on.
  clear : ∀ x ∈ p.todo, ∃ task, p.machine.shared.tasks[x]? = some task ∧
    (task.completed = false → task.continuation = none)
  kept : ∀ q ∈ p.inner, p.machine.shared.completed q.1 = true ∨
    p.machine.shared.Stored q.1 q.2
  stage : ∀ q ∈ p.inner, Stage p.machine q.1 q.2 (p.point q.2)
  counted : p.remaining + p.passes = c.tasks.length
  -- `SetResult` is called by the run that reads zero, if there is one.
  once : p.calls + p.dues ≤ 1
  last : c.tasks ≠ [] → (p.calls + p.dues = 1 ↔ p.remaining = 0)
  promised : p.calls = 0 → c.t ∈ p.machine.shared.pledged
  called : p.calls = 1 → After p.machine c.t
  -- For an empty list the call is still in its own code.
  calling : c.tasks = [] → p.calls = 0 → ∃ frame rest,
    p.machine.threads[c.caller]? = some (frame :: rest) ∧ frame.user = true

/-- A callback stays stored on its task until that is completed. -/
theorem kept_step (hstep : AwaitAsync.step s (th, act) = some s')
    (hx : act.registersOn ≠ some x) (h : s.shared.completed x = true ∨ s.shared.Stored x u) :
    s'.shared.completed x = true ∨ s'.shared.Stored x u := by
  rcases step_cases hstep with ⟨frame, rest, m', frames, -, -, hmove, rfl⟩
  rcases h with hdone | hstored
  · exact .inl (hmove.completed hdone)
  · rcases hmove.stored_or_invoked hx hstored with hstored | ⟨hdone, -⟩
    · exact .inr hstored
    · exact .inl hdone

/-- A task on which nothing is stored stays so. -/
theorem clear_step (hstep : AwaitAsync.step s (th, act) = some s')
    (hx : act.registersOn ≠ some x) (h : ∃ task, s.shared.tasks[x]? = some task ∧
      (task.completed = false → task.continuation = none)) :
    ∃ task, s'.shared.tasks[x]? = some task ∧
      (task.completed = false → task.continuation = none) := by
  rcases h with ⟨task, htask, hclear⟩
  rcases step_cases hstep with ⟨frame, rest, m', frames, -, -, hmove, rfl⟩
  rcases hmove.task hx htask with hsame | hset
  · exact ⟨task, hsame, hclear⟩
  · have hdone := Shared.completed_of_setResult hset
    unfold Shared.completed at hdone
    rcases (Option.any_eq_true _ _).mp hdone with ⟨task', htask', hcompleted⟩
    refine ⟨task', htask', fun hopen => ?_⟩
    rw [hopen] at hcompleted
    cases hcompleted

/-- The run of a thread goes on unless the thread leaves it. -/
theorem during_step (hstep : AwaitAsync.step s (th, act) = some s')
    (hleaves : ∀ rest, s.threads[th]? ≠ some (.action u :: rest))
    (h : Calls s.threads (· = .action u)) : Calls s'.threads (· = .action u) := by
  rcases step_cases hstep with ⟨frame, rest, m', frames, hthread, -, -, rfl⟩
  rcases calls_move hthread frames h with rfl | hcalls
  · exact absurd hthread (hleaves rest)
  · exact hcalls

theorem length_le_step (hstep : AwaitAsync.step s (th, act) = some s') :
    s.shared.tasks.length ≤ s'.shared.tasks.length :=
  (conserved hstep 0).grows

variable {c : Call} {p p' : Progress}

/-- Nothing is decremented, and no `SetResult` is called or comes due, while
    the runs of the continuation stay where they are. -/
theorem passes_congr (hinner : p'.inner = p.inner)
    (hpoint : ∀ q ∈ p.inner, p'.point q.2 = p.point q.2) :
    p'.passes = p.passes ∧ p'.dues = p.dues := by
  unfold Progress.passes Progress.dues
  rw [hinner]
  exact ⟨tally_congr (fun q hq => congrArg Point.passed (hpoint q hq)),
    tally_congr (fun q hq => congrArg Point.due (hpoint q hq))⟩

/-- A task that is registered on is none of those that are still to be. -/
theorem Sound.not_todo (h : Sound c p) {x : Nat} {todo : List Nat} (htodo : p.todo = x :: todo) :
    x ∉ todo ∧ ∀ q ∈ p.inner, x ≠ q.1 := by
  have hdistinct := h.distinct
  rw [← h.split, htodo, List.nodup_append] at hdistinct
  rcases hdistinct with ⟨-, hrest, hapart⟩
  refine ⟨(List.nodup_cons.mp hrest).1, fun q hq hxq => ?_⟩
  exact hapart q.1 (List.mem_map.mpr ⟨q, hq, rfl⟩) x List.mem_cons_self hxq.symm

/-- For an empty list there are no continuations. -/
theorem Sound.inner_eq_nil (h : Sound c p) (htasks : c.tasks = []) : p.inner = [] := by
  have hsplit := h.split
  rw [htasks, List.append_eq_nil_iff, List.map_eq_nil_iff] at hsplit
  exact hsplit.1

/-- A continuation is one of a listed task, so the list is not empty. -/
theorem Sound.tasks_ne_nil (h : Sound c p) (hu : u ∈ p.inner.map Prod.snd) : c.tasks ≠ [] := by
  intro htasks
  rw [h.inner_eq_nil htasks] at hu
  cases hu

/-- A step of other code keeps what holds of a call. -/
theorem Sound.other (h : Sound c p) {label : Nat × Act} (hapart : Apart c p label)
    (hstep : AwaitAsync.step p.machine label = some s) :
    Sound c { p with
      machine := s
      point := p.enter label } := by
  rcases label with ⟨th, act⟩
  have hacc := accounted h.reachable
  have hlisted : ∀ q ∈ p.inner, q.1 ∈ c.tasks := by
    intro q hq
    rw [← h.split]
    exact List.mem_append_left _ (List.mem_map.mpr ⟨q, hq, rfl⟩)
  -- A run that begins has not decremented the counter, so its point stays.
  have hpoint : ∀ q ∈ p.inner, p.enter (th, act) q.2 = p.point q.2 := by
    intro q hq
    unfold Progress.enter
    cases hentered : entered p.machine (th, act) with
    | none => rfl
    | some u =>
        by_cases hqu : q.2 = u
        · rcases (h.stage q hq).begun h.reachable with ⟨-, hdecrement⟩ | hbegun
          · simp only [hqu, Function.update_self]
            rw [← hqu, hdecrement]
          · exact absurd (hqu ▸ hbegun) (not_begun_of_entered hacc hentered)
        · exact Function.update_of_ne hqu _ _
  have hsame := @passes_congr p { p with machine := s, point := p.enter (th, act) } rfl hpoint
  exact
    { reachable := h.reachable.step _ _ _ hstep
      distinct := h.distinct
      split := h.split
      inners := h.inners
      fresh := by
        intro u hu
        exact Nat.lt_of_lt_of_le (h.fresh u hu) (length_le_step hstep)
      point := by
        intro u hu
        have hdecrement := h.point u (Nat.le_trans (length_le_step hstep) hu)
        change p.enter (th, act) u = .decrement
        unfold Progress.enter
        cases entered p.machine (th, act) with
        | none => exact hdecrement
        | some v =>
            by_cases huv : u = v
            · simp only [huv, Function.update_self]
            · simp only [Function.update_of_ne huv]
              exact hdecrement
      clear := by
        intro x hx
        refine clear_step hstep (hapart.registers x ?_) (h.clear x hx)
        rw [← h.split]
        exact List.mem_append_right _ hx
      kept := by
        intro q hq
        exact kept_step hstep (hapart.registers q.1 (hlisted q hq)) (h.kept q hq)
      stage := by
        intro q hq
        change Stage s q.1 q.2 (p.enter (th, act) q.2)
        rw [hpoint q hq]
        refine (h.stage q hq).step hstep (hapart.registers q.1 (hlisted q hq)) ?_
        refine during_step hstep (fun rest hthread => ?_)
        have hrunning := hapart.running
        unfold Progress.running at hrunning
        simp only [hthread] at hrunning
        rw [if_pos (List.mem_map.mpr ⟨q, hq, rfl⟩)] at hrunning
        cases hrunning
      counted := by
        rw [hsame.1]
        exact h.counted
      once := by
        rw [hsame.2]
        exact h.once
      last := by
        intro hne
        rw [hsame.2]
        exact h.last hne
      promised := by
        intro hcalls
        rcases step_cases hstep with ⟨frame, rest, m', frames, -, -, hmove, rfl⟩
        exact hmove.pledged_mem (h.promised hcalls) hapart.result
      called := by
        intro hcalls
        exact (h.called hcalls).step hstep
      calling := by
        intro htasks hcalls
        have hcaller : th ≠ c.caller := by
          intro hth
          have hout := hapart.caller hth
          unfold Progress.inCall at hout
          rw [htasks, hcalls, beq_self_eq_true, beq_self_eq_true, Bool.and_true,
            Bool.or_true] at hout
          cases hout
        rcases step_cases hstep with ⟨frame, rest, m', frames, -, -, -, rfl⟩
        change ∃ frame' rest', (p.machine.threads.set th (frames ++ rest))[c.caller]? = _ ∧ _
        rw [List.getElem?_set_ne hcaller]
        exact h.calling htasks hcalls }

/-- The continuation is registered: its callback is stored on the task, or
    queued because the task is completed. -/
theorem registered_before (hstep : AwaitAsync.step s (th, .continueWith x) = some s') :
    s'.shared.tasks.length = s.shared.tasks.length + 1 ∧
      (s'.shared.completed x = true ∨ s'.shared.Stored x s.shared.tasks.length) ∧
      Before s' x s.shared.tasks.length := by
  rcases step_cases hstep with ⟨frame, rest, m', frames, -, -, hmove, rfl⟩
  cases hmove with
  | continueWith frame _ m₁ huser hm =>
      have hlength := (Shared.continueWith_frame hm).1
      refine ⟨hlength, ?_⟩
      rcases Shared.continueWith_cases hm with ⟨task, htask, ⟨hdone, rfl⟩ | ⟨hopen, rfl⟩⟩
      · refine ⟨.inl ?_, .inr (.inl (List.mem_append_right _ List.mem_cons_self))⟩
        have hcompleted : s.shared.completed x = true := by
          unfold Shared.completed
          rw [htask, Option.any_some]
          exact hdone
        exact (Shared.completed_create s.shared x).trans hcompleted
      · have hx := (List.getElem?_eq_some_iff.mp (Shared.getElem?_create htask)).1
        have hstored : (s.shared.create.write x { task with
            continuation := some (.action s.shared.tasks.length .user) }).Stored x
              s.shared.tasks.length := ⟨_, List.getElem?_set_self hx, hopen, rfl⟩
        exact ⟨.inr hstored, .inl hstored⟩

/-- A round of the loop keeps what holds of a call. -/
theorem Sound.register (h : Sound c p) {x : Nat} {todo : List Nat} (htodo : p.todo = x :: todo)
    (hstep : AwaitAsync.step p.machine (c.caller, .continueWith x) = some s) :
    Sound c { p with
      machine := s
      todo
      inner := p.inner ++ [(x, p.machine.shared.tasks.length)] } := by
  rcases registered_before hstep with ⟨hlength, hkept, hbefore⟩
  rcases h.not_todo htodo with ⟨hxtodo, hxinner⟩
  -- The task of the new run is the next one to be created.
  have hnew : p.machine.shared.tasks.length ∉ p.inner.map Prod.snd := by
    intro hmem
    exact Nat.lt_irrefl _ (h.fresh _ hmem)
  have hpoint := h.point _ (Nat.le_refl p.machine.shared.tasks.length)
  have hx : ∀ q ∈ p.inner, Act.registersOn (.continueWith x) ≠ some q.1 := by
    intro q hq heq
    exact hxinner q hq (Option.some.inj heq)
  have hmem : ∀ q, q ∈ p.inner ++ [(x, p.machine.shared.tasks.length)] →
      q ∈ p.inner ∨ q = (x, p.machine.shared.tasks.length) := by
    intro q hq
    rcases List.mem_append.mp hq with hq | hq
    · exact .inl hq
    · exact .inr (List.mem_singleton.mp hq)
  exact
    { reachable := h.reachable.step _ _ _ hstep
      distinct := h.distinct
      split := by
        change (p.inner ++ [(x, _)]).map Prod.fst ++ todo = c.tasks
        rw [← h.split, htodo, List.map_append, List.append_assoc]
        rfl
      inners := by
        change ((p.inner ++ [(x, _)]).map Prod.snd).Nodup
        rw [List.map_append, List.nodup_append]
        refine ⟨h.inners, List.nodup_singleton _, fun u hu v hv => ?_⟩
        rw [List.map_singleton, List.mem_singleton] at hv
        intro huv
        rw [huv, hv] at hu
        exact hnew hu
      fresh := by
        intro u hu
        change u ∈ (p.inner ++ [(x, _)]).map Prod.snd at hu
        change u < s.shared.tasks.length
        rw [List.map_append, List.mem_append, List.map_singleton, List.mem_singleton] at hu
        rcases hu with hu | hu
        · have hlt := h.fresh u hu
          omega
        · omega
      point := by
        intro u hu
        change s.shared.tasks.length ≤ u at hu
        exact h.point u (by omega)
      clear := by
        intro y hy
        have hne : Act.registersOn (.continueWith x) ≠ some y := by
          intro heq
          exact hxtodo (Option.some.inj heq ▸ hy)
        exact clear_step hstep hne (h.clear y (htodo ▸ List.mem_cons_of_mem x hy))
      kept := by
        intro q hq
        rcases hmem q hq with hq | rfl
        · exact kept_step hstep (hx q hq) (h.kept q hq)
        · exact hkept
      stage := by
        intro q hq
        rcases hmem q hq with hq | rfl
        -- The frame that registers stays on its stack, also when it is a run's.
        · refine (h.stage q hq).step hstep (hx q hq) (fun hduring => ?_)
          rcases step_cases hstep with ⟨frame, rest, m', frames, hthread, -, hmove, rfl⟩
          rcases calls_move hthread frames hduring with rfl | hcalls
          · cases hmove
            exact calls_of_frames hthread ⟨_, List.mem_cons_self, rfl⟩
          · exact hcalls
        · change Stage s x _ (p.point _)
          rw [hpoint]
          exact .before hbefore
      counted := by
        change p.remaining +
          ((tally (fun q => (p.point q.2).passed) (p.inner ++ [(x, _)]) : Nat) : Int) = _
        rw [tally_append, tally_cons, tally_nil, hpoint]
        exact h.counted
      once := by
        change p.calls + tally (fun q => (p.point q.2).due) (p.inner ++ [(x, _)]) ≤ 1
        rw [tally_append, tally_cons, tally_nil, hpoint]
        exact h.once
      last := by
        intro hne
        change p.calls + tally (fun q => (p.point q.2).due) (p.inner ++ [(x, _)]) = 1 ↔ _
        rw [tally_append, tally_cons, tally_nil, hpoint]
        exact h.last hne
      promised := by
        intro hcalls
        rcases step_cases hstep with ⟨frame, rest, m', frames, -, -, hmove, rfl⟩
        exact hmove.pledged_mem (h.promised hcalls) (fun hact => by cases hact)
      called := by
        intro hcalls
        exact (h.called hcalls).step hstep
      calling := by
        intro htasks _
        rw [← h.split, htodo] at htasks
        simp at htasks }

/-- `SetResult` of the new task has been called, as a step of the machine that
    leaves the other calls of the thread where they are. -/
theorem Sound.call (h : Sound c p) (hcalls : p.calls = 0) {frame : Frame} {rest : List Frame}
    (hthread : p.machine.threads[th]? = some (frame :: rest)) (huser : frame.user = true)
    (hcall : callSetResult p.machine th c.t = some s) :
    AwaitAsync.step p.machine (th, .setResult c.t) = some s ∧
      Calls s.threads (· = .setResult c.t) ∧
      ∀ f, Calls p.machine.threads (· = f) → Calls s.threads (· = f) := by
  have hstep := step_of_callSetResult hcall hthread huser (h.promised hcalls)
  refine ⟨hstep, ?_⟩
  unfold callSetResult at hcall
  rw [hthread, Option.some.injEq] at hcall
  subst hcall
  refine ⟨@calls_of_frames _ _ _ _ [.setResult c.t, frame] _ hthread
    ⟨_, List.mem_cons_self, rfl⟩, fun f hf => ?_⟩
  rcases calls_move hthread [.setResult c.t, frame] hf with rfl | hf
  · exact @calls_of_frames _ _ _ _ [.setResult c.t, frame] _ hthread
      ⟨_, List.mem_cons_of_mem _ List.mem_cons_self, rfl⟩
  · exact hf

/-- The parts of what holds of a call that are about the machine, after a step
    of it that registers nothing. -/
theorem Sound.machine_step (h : Sound c p) {act : Act} (hx : ∀ x, act.registersOn ≠ some x)
    (hstep : AwaitAsync.step p.machine (th, act) = some s) :
    AwaitAsync.system.Reachable s ∧ (∀ u ∈ p.inner.map Prod.snd, u < s.shared.tasks.length) ∧
      (∀ x ∈ p.todo, ∃ task, s.shared.tasks[x]? = some task ∧
        (task.completed = false → task.continuation = none)) ∧
      (∀ q ∈ p.inner, s.shared.completed q.1 = true ∨ s.shared.Stored q.1 q.2) ∧
      ∀ q ∈ p.inner, (Calls p.machine.threads (· = .action q.2) →
        Calls s.threads (· = .action q.2)) → Stage s q.1 q.2 (p.point q.2) := by
  refine ⟨h.reachable.step _ _ _ hstep, ?_, ?_, ?_, ?_⟩
  · intro u hu
    exact Nat.lt_of_lt_of_le (h.fresh u hu) (length_le_step hstep)
  · intro x hxtodo
    exact clear_step hstep (hx x) (h.clear x hxtodo)
  · intro q hq
    exact kept_step hstep (hx q.1) (h.kept q hq)
  · intro q hq
    exact (h.stage q hq).step hstep (hx q.1)

/-- For an empty list `SetResult` is called at once. -/
theorem Sound.empty (h : Sound c p) (htasks : c.tasks = []) (hcalls : p.calls = 0)
    (hcall : callSetResult p.machine c.caller c.t = some s) :
    Sound c { p with
      machine := s
      calls := p.calls + 1 } := by
  rcases h.calling htasks hcalls with ⟨frame, rest, hthread, huser⟩
  rcases h.call hcalls hthread huser hcall with ⟨hstep, hcalled, hframes⟩
  rcases h.machine_step (fun x hx => by cases hx) hstep with
    ⟨hreach, hfresh, hclear, hkept, hstage⟩
  -- Of no tasks, none is waited for.
  have hnone := h.inner_eq_nil htasks
  have hdues : p.dues = 0 := by
    unfold Progress.dues
    rw [hnone]
    rfl
  exact
    { reachable := hreach
      distinct := h.distinct
      split := h.split
      inners := h.inners
      fresh := hfresh
      point := by
        intro u hu
        exact h.point u (Nat.le_trans (length_le_step hstep) hu)
      clear := hclear
      kept := hkept
      stage := fun q hq => hstage q hq (hframes _)
      counted := h.counted
      -- This call is the only one.
      once := by
        change p.calls + 1 + p.dues ≤ 1
        omega
      last := by
        intro hne
        exact absurd htasks hne
      promised := by
        intro hzero
        change p.calls + 1 = 0 at hzero
        omega
      called := by
        intro _
        exact .inr hcalled
      calling := by
        intro _ hzero
        change p.calls + 1 = 0 at hzero
        omega }

/-- A run decrements the counter, and comes to call `SetResult` if it reads
    zero. -/
theorem Sound.decrement (h : Sound c p) (hu : u ∈ p.inner.map Prod.snd) {rest : List Frame}
    (hthread : p.machine.threads[th]? = some (.action u :: rest))
    (hpoint : p.point u = .decrement) :
    Sound c { p with
      remaining := p.remaining - 1
      point := Function.update p.point u
        (if p.remaining - 1 = 0 then .setResult else .returns) } := by
  have hpasses := tally_update Prod.snd Point.passed p.point u
    (if p.remaining - 1 = 0 then .setResult else .returns) h.inners hu
  have hdues := tally_update Prod.snd Point.due p.point u
    (if p.remaining - 1 = 0 then .setResult else .returns) h.inners hu
  have hone : (if p.remaining - 1 = 0 then Point.setResult else .returns).passed = 1 := by
    by_cases hzero : p.remaining - 1 = 0
    · rw [if_pos hzero]
      rfl
    · rw [if_neg hzero]
      rfl
  rw [hpoint, hone] at hpasses
  rw [hpoint] at hdues
  have hcounted := h.counted
  have honce := h.once
  have hlast := h.last (h.tasks_ne_nil hu)
  have hlength : p.inner.length ≤ c.tasks.length := by
    rw [← h.split, List.length_append, List.length_map]
    omega
  have hle := tally_le_length (l := p.inner)
    (w := fun q => (Function.update p.point u
      (if p.remaining - 1 = 0 then .setResult else .returns) q.2).passed)
    (fun q _ => Point.passed_le_one _)
  have hpositive : 0 < p.remaining := by
    unfold Progress.passes at hcounted
    change _ + 0 = _ at hpasses
    omega
  -- The run that reads zero is the one that comes due.
  have hcalls : p.calls + tally (fun q => (Function.update p.point u
      (if p.remaining - 1 = 0 then .setResult else .returns) q.2).due) p.inner ≤ 1 ∧
      (p.calls + tally (fun q => (Function.update p.point u
        (if p.remaining - 1 = 0 then .setResult else .returns) q.2).due) p.inner = 1 ↔
        p.remaining - 1 = 0) := by
    unfold Progress.dues at honce hlast
    change _ + 0 = _ at hdues
    by_cases hzero : p.remaining - 1 = 0
    · rw [if_pos hzero] at hdues ⊢
      change _ = _ + 1 at hdues
      omega
    · rw [if_neg hzero] at hdues ⊢
      change _ = _ + 0 at hdues
      omega
  exact
    { reachable := h.reachable
      distinct := h.distinct
      split := h.split
      inners := h.inners
      fresh := h.fresh
      point := by
        intro v hv
        have hne : v ≠ u := by
          intro hvu
          have hlt := h.fresh u hu
          change p.machine.shared.tasks.length ≤ v at hv
          omega
        change Function.update p.point u _ v = .decrement
        rw [Function.update_of_ne hne]
        exact h.point v hv
      clear := h.clear
      kept := h.kept
      stage := by
        intro q hq
        change Stage p.machine q.1 q.2 (Function.update p.point u _ q.2)
        by_cases hqu : q.2 = u
        · rw [hqu]
          exact .during _ ⟨_, List.mem_of_getElem? hthread, _, List.mem_cons_self, rfl⟩
        · rw [Function.update_of_ne hqu]
          exact h.stage q hq
      counted := by
        change p.remaining - 1 +
          ((tally (fun q => (Function.update p.point u _ q.2).passed) p.inner : Nat) : Int) = _
        unfold Progress.passes at hcounted
        change _ + 0 = _ at hpasses
        omega
      once := by
        exact hcalls.1
      last := by
        exact fun _ => hcalls.2
      promised := h.promised
      called := h.called
      calling := h.calling }

/-- The run that has read zero calls `SetResult`. -/
theorem Sound.setResult (h : Sound c p) (hu : u ∈ p.inner.map Prod.snd) {rest : List Frame}
    (hthread : p.machine.threads[th]? = some (.action u :: rest)) (hpoint : p.point u = .setResult)
    (hcall : callSetResult p.machine th c.t = some s) :
    Sound c { p with
      machine := s
      point := Function.update p.point u .returns
      calls := p.calls + 1 } := by
  have hpasses := tally_update Prod.snd Point.passed p.point u .returns h.inners hu
  have hdues := tally_update Prod.snd Point.due p.point u .returns h.inners hu
  rw [hpoint] at hpasses hdues
  change _ + 1 = _ + 1 at hpasses
  change _ + 1 = _ + 0 at hdues
  have hcounted := h.counted
  have honce := h.once
  have hlast := h.last
  unfold Progress.passes at hcounted
  unfold Progress.dues at honce hlast
  -- This run is due, and no more than one call is made or due.
  have hcalls : p.calls = 0 := by omega
  rcases h.call hcalls hthread rfl hcall with ⟨hstep, hcalled, hframes⟩
  rcases h.machine_step (fun x hx => by cases hx) hstep with
    ⟨hreach, hfresh, hclear, hkept, hstage⟩
  exact
    { reachable := hreach
      distinct := h.distinct
      split := h.split
      inners := h.inners
      fresh := hfresh
      point := by
        intro v hv
        have hlt := hfresh u hu
        change s.shared.tasks.length ≤ v at hv
        change Function.update p.point u _ v = .decrement
        rw [Function.update_of_ne (by omega)]
        exact h.point v (Nat.le_trans (length_le_step hstep) hv)
      clear := hclear
      kept := hkept
      stage := by
        intro q hq
        change Stage s q.1 q.2 (Function.update p.point u _ q.2)
        by_cases hqu : q.2 = u
        · rw [hqu, Function.update_self]
          exact .during _ (hframes _ ⟨_, List.mem_of_getElem? hthread, _, List.mem_cons_self, rfl⟩)
        · rw [Function.update_of_ne hqu]
          exact hstage q hq (hframes _)
      counted := by
        change p.remaining + ((tally (fun q => (Function.update p.point u _ q.2).passed) p.inner :
          Nat) : Int) = _
        omega
      once := by
        change p.calls + 1 + tally (fun q => (Function.update p.point u _ q.2).due) p.inner ≤ 1
        omega
      last := by
        intro hne
        change p.calls + 1 + tally (fun q => (Function.update p.point u _ q.2).due) p.inner = 1 ↔
          p.remaining = 0
        have hzero := hlast hne
        omega
      promised := by
        intro hzero
        change p.calls + 1 = 0 at hzero
        omega
      called := by
        intro _
        exact .inr hcalled
      calling := by
        intro _ hzero
        change p.calls + 1 = 0 at hzero
        omega }

/-- A run that is at its end returns, and its own task is completed. -/
theorem Sound.returns (h : Sound c p) (hu : u ∈ p.inner.map Prod.snd) {rest : List Frame}
    (hthread : p.machine.threads[th]? = some (.action u :: rest)) (hpoint : p.point u = .returns)
    (hstep : AwaitAsync.step p.machine (th, .returns) = some s) :
    Sound c { p with machine := s } := by
  rcases h.machine_step (fun x hx => by cases hx) hstep with
    ⟨hreach, hfresh, hclear, hkept, hstage⟩
  exact
    { reachable := hreach
      distinct := h.distinct
      split := h.split
      inners := h.inners
      fresh := hfresh
      point := by
        intro v hv
        exact h.point v (Nat.le_trans (length_le_step hstep) hv)
      clear := hclear
      kept := hkept
      stage := by
        intro q hq
        -- The run that returns was the one of `u`.
        by_cases hqu : q.2 = u
        · rw [hqu, hpoint]
          rcases step_cases hstep with ⟨frame, rest', m', frames, hthread', -, hmove, rfl⟩
          rw [hthread, Option.some.injEq, List.cons.injEq] at hthread'
          rcases hthread' with ⟨rfl, rfl⟩
          cases hmove with
          | returns => exact .after (.inr (calls_of_frames hthread ⟨_, List.mem_cons_self, rfl⟩))
        -- Only the run of `u` is left.
        · refine hstage q hq (during_step hstep (fun rest' hthread' => ?_))
          rw [hthread, Option.some.injEq, List.cons.injEq] at hthread'
          exact hqu (Frame.action.inj hthread'.1).symm
      counted := h.counted
      once := h.once
      last := h.last
      promised := by
        intro hcalls
        rcases step_cases hstep with ⟨frame, rest', m', frames, -, -, hmove, rfl⟩
        exact hmove.pledged_mem (h.promised hcalls) (fun hact => by cases hact)
      called := by
        intro hcalls
        exact (h.called hcalls).step hstep
      calling := fun htasks => absurd htasks (h.tasks_ne_nil hu) }

/-- What holds of a call goes on to hold. -/
theorem Sound.moves (h : Sound c p) (hmoves : Moves c p p') : Sound c p' := by
  cases hmoves with
  | other label s hapart hstep => exact h.other hapart hstep
  | register x todo s htodo hstep => exact h.register htodo hstep
  | empty s htasks hcalls hcall => exact h.empty htasks hcalls hcall
  | decrement u hu th rest hthread hpoint => exact h.decrement hu hthread hpoint
  | setResult th u hu rest s hthread hpoint hcall => exact h.setResult hu hthread hpoint hcall
  | returns th u hu rest s hthread hpoint hstep => exact h.returns hu hthread hpoint hstep

/-- Nothing has been registered yet. -/
theorem Sound.initial (h : Initial c p) : Sound c p := by
  rcases h.made with ⟨s, hreach, hstep, ht, hclear⟩
  -- No task has been looked at, so there is no inner continuation.
  have hnone : ∀ q, q ∉ p.inner := by
    intro q hq
    rw [h.inner] at hq
    cases hq
  have hpasses : p.passes = 0 := by
    unfold Progress.passes
    rw [h.inner]
    rfl
  have hdues : p.dues = 0 := by
    unfold Progress.dues
    rw [h.inner]
    rfl
  exact
    { reachable := hreach.step _ _ _ hstep
      distinct := h.distinct
      split := by
        rw [h.inner, h.todo]
        rfl
      inners := by
        rw [h.inner]
        exact List.nodup_nil
      fresh := by
        intro u hu
        rw [h.inner] at hu
        cases hu
      point := fun u _ => h.point u
      clear := by
        intro x hx
        exact clear_step hstep (fun hact => by cases hact) (hclear x (h.todo ▸ hx))
      kept := fun q hq => absurd hq (hnone q)
      stage := fun q hq => absurd hq (hnone q)
      -- Nobody has counted down, and all are still to come.
      counted := by
        rw [hpasses, h.remaining]
        omega
      once := by
        rw [hdues, h.calls]
        omega
      last := by
        intro hne
        have hpos := List.length_pos_iff.mpr hne
        rw [hdues, h.calls, h.remaining]
        omega
      -- The promise has been made by the step that makes the outer task.
      promised := by
        intro _
        rcases step_cases hstep with ⟨frame, rest, m', frames, -, -, hmove, hp⟩
        rw [hp, ht]
        cases hmove with
        | new => exact List.mem_cons_self
      called := by
        intro hcalls
        rw [h.calls] at hcalls
        cases hcalls
      -- The thread that made it is still in the call.
      calling := by
        intro _ _
        rcases step_cases hstep with ⟨frame, rest, m', frames, hthread, -, hmove, hp⟩
        have hcaller := (List.getElem?_eq_some_iff.mp hthread).1
        rw [hp]
        cases hmove with
        | new frame huser => exact ⟨frame, rest, List.getElem?_set_self hcaller, huser⟩ }

/-- In any run of a call. -/
theorem sound (h : (system c).Reachable p) : Sound c p :=
  h.invariant (Sound c) (fun _ => Sound.initial) (fun _ _ _ hs hstep => hs.moves (step_moves hstep))

/-- No task is completed while `SetResult` of it is still to be called. -/
theorem not_completed_of_pledged (hreach : AwaitAsync.system.Reachable s) {t : Nat}
    (ht : t ∈ s.shared.pledged) : s.shared.completed t = false := by
  rw [← Bool.not_eq_true]
  intro hdone
  have hacc := accounted hreach
  have hworks := hacc.works t
  have honce := hacc.once t
  have hpos : 0 < s.shared.pledged.count t := List.count_pos_iff.mpr ht
  have hcompleted : s.shared.done t = 1 := by
    unfold Shared.done
    rw [hdone]
    rfl
  unfold State.ongoing Shared.ongoing at hworks
  omega

/-- A run that has decremented the counter is one of a completed task. -/
theorem Sound.completed_of_passed (h : Sound c p) {q : Nat × Nat} (hq : q ∈ p.inner)
    (hpassed : p.point q.2 ≠ .decrement) : p.machine.shared.completed q.1 = true := by
  rcases (h.stage q hq).begun h.reachable with ⟨-, hdecrement⟩ | hbegun
  · exact absurd hdecrement hpassed
  · rcases h.kept q hq with hdone | hstored
    · exact hdone
    · exact absurd hbegun (not_begun_of_stored (accounted h.reachable) hstored)

theorem Sound.length_le (h : Sound c p) : p.inner.length ≤ c.tasks.length := by
  rw [← h.split, List.length_append, List.length_map]
  omega

/-- When the counter reads zero, every listed task is completed. -/
theorem Sound.completed_of_zero (h : Sound c p) (hzero : p.remaining = 0) :
    ∀ x ∈ c.tasks, p.machine.shared.completed x = true := by
  have hcounted := h.counted
  have hlength := h.length_le
  have hle : p.passes ≤ p.inner.length := tally_le_length (fun q _ => (p.point q.2).passed_le_one)
  have hall := eq_one_of_length_le_tally (l := p.inner) (w := fun q => (p.point q.2).passed)
    (fun q _ => (p.point q.2).passed_le_one) (by unfold Progress.passes at hcounted; omega)
  -- The loop is over, since there are as many runs as listed tasks.
  have htodo : p.todo = [] := by
    have hsplit := congrArg List.length h.split
    rw [List.length_append, List.length_map] at hsplit
    exact List.length_eq_zero_iff.mp (by omega)
  intro x hx
  rw [← h.split, htodo, List.append_nil] at hx
  rcases List.mem_map.mp hx with ⟨q, hq, rfl⟩
  refine h.completed_of_passed hq (fun hpoint => ?_)
  have hone := hall q hq
  rw [hpoint] at hone
  cases hone

/-- When the new task is completed, the counter has read zero, or the list is
    empty. -/
theorem Sound.zero_of_completed (h : Sound c p) (hdone : p.machine.shared.completed c.t = true)
    (hne : c.tasks ≠ []) : p.remaining = 0 := by
  have honce := h.once
  have hcalls : p.calls ≠ 0 := by
    intro hzero
    rw [not_completed_of_pledged h.reachable (h.promised hzero)] at hdone
    cases hdone
  exact (h.last hne).mp (by omega)

/-- When nothing is left to run, no thread is in a call. -/
theorem not_calls_of_drained (hdrained : Drained s) {f : Frame} (hclient : f ≠ .client)
    (hworker : f ≠ .worker) : ¬ Calls s.threads (· = f) := by
  intro hcalls
  rcases hcalls with ⟨stack, hstack, f', hf', rfl⟩
  rcases hdrained.2 stack hstack with rfl | rfl
  · exact hclient (List.mem_singleton.mp hf')
  · exact hworker (List.mem_singleton.mp hf')

/-- Nothing is left to run, so every run of a completed task is over. -/
theorem Sound.returned_of_drained (h : Sound c p) (hdrained : Drained p.machine) {q : Nat × Nat}
    (hq : q ∈ p.inner) (hdone : p.machine.shared.completed q.1 = true) :
    p.point q.2 = .returns := by
  have hstage := h.stage q hq
  revert hstage
  generalize p.point q.2 = point
  intro hstage
  cases hstage with
  | before hbefore =>
      rcases hbefore with ⟨task, htask, hopen, -⟩ | hqueued | hcalls
      · unfold Shared.completed at hdone
        rw [htask, Option.any_some, hopen] at hdone
        cases hdone
      · rw [hdrained.1] at hqueued
        cases hqueued
      · exact absurd hcalls (not_calls_of_drained hdrained (fun hf => by cases hf)
          (fun hf => by cases hf))
  | during _ hcalls =>
      exact absurd hcalls (not_calls_of_drained hdrained (fun hf => by cases hf)
        (fun hf => by cases hf))
  | after _ => rfl

/-- When the loop is over, every listed task is completed and nothing is left
    to run, `SetResult` of the new task has been called. -/
theorem Sound.called_of_drained (h : Sound c p) (hout : p.inCall c = false)
    (hdrained : Drained p.machine)
    (hall : ∀ x ∈ c.tasks, p.machine.shared.completed x = true) : p.calls = 1 := by
  unfold Progress.inCall at hout
  rw [Bool.or_eq_false_iff, decide_eq_false_iff_not, not_not] at hout
  rcases hout with ⟨htodo, hempty⟩
  have honce := h.once
  by_cases hne : c.tasks = []
  · rw [hne, beq_self_eq_true, Bool.true_and, beq_eq_false_iff_ne] at hempty
    omega
  -- All inner continuations have run to their ends.
  · have hreturned : ∀ q ∈ p.inner, p.point q.2 = .returns := by
      intro q hq
      refine h.returned_of_drained hdrained hq (hall q.1 ?_)
      rw [← h.split]
      exact List.mem_append_left _ (List.mem_map.mpr ⟨q, hq, rfl⟩)
    -- So all have counted down, and none owes the call any more.
    have hpasses : p.passes = p.inner.length := by
      refine tally_eq_length (fun q hq => ?_)
      rw [hreturned q hq]
      rfl
    have hdues : p.dues = 0 := by
      by_contra hpos
      rcases (tally_pos_iff _ _).mp (Nat.pos_of_ne_zero hpos) with ⟨q, hq, hdue⟩
      rw [hreturned q hq] at hdue
      cases hdue
    have hlength : p.inner.length = c.tasks.length := by
      rw [← h.split, htodo, List.append_nil, List.length_map]
    have hcounted := h.counted
    have hlast := (h.last hne).mpr (by omega)
    omega

/-- The task that `WaitAll` returns is completed only when every listed one is.
    Its `SetResult` is called once at most, and finds it not completed. When
    the loop is over, every listed task is completed and nothing is left to
    run, it is completed. -/
theorem waitAll_spec (c : Call) {p : Progress} (h : (system c).Reachable p) :
    (p.machine.shared.completed c.t = true →
      ∀ x ∈ c.tasks, p.machine.shared.completed x = true) ∧
    (p.calls + p.dues ≤ 1 ∧ ∀ (th : Nat) (rest : List Frame),
      p.machine.threads[th]? = some (Frame.setResult c.t :: rest) →
        (p.machine.shared.setResult c.t).isSome = true) ∧
    (p.inCall c = false → Drained p.machine →
      (∀ x ∈ c.tasks, p.machine.shared.completed x = true) →
      p.machine.shared.completed c.t = true) := by
  have hsound := sound h
  refine ⟨fun hdone => ?_, ⟨hsound.once, fun th rest => setResult_isSome hsound.reachable⟩,
    fun hout hdrained hall => ?_⟩
  · by_cases hne : c.tasks = []
    · intro x hx
      rw [hne] at hx
      cases hx
    · exact hsound.completed_of_zero (hsound.zero_of_completed hdone hne)
  · rcases hsound.called (hsound.called_of_drained hout hdrained hall) with hdone | hcalls
    · exact hdone
    · exact absurd hcalls (not_calls_of_drained hdrained (fun h => by cases h)
        (fun h => by cases h))

/-- A task that is completed, and one that is not. -/
def oneOpen : State where
  shared :=
    { tasks := [{ completed := true, exception := none, continuation := none }, MyTask.new]
      workerItems := [], pledged := [1], begun := [1, 0], raised := [], returned := []
      registered := [] }
  threads := [[.client], [.worker], [.client]]

/-- No thread has anything to do. -/
theorem oneOpen_idle : ∀ stack ∈ oneOpen.threads, Idle stack := by
  intro stack hstack
  unfold oneOpen at hstack
  simp only [List.mem_cons, List.not_mem_nil, or_false] at hstack
  rcases hstack with rfl | rfl | rfl
  · exact .inl rfl
  · exact .inr rfl
  · exact .inl rfl

theorem oneOpen_reachable : AwaitAsync.system.Reachable oneOpen :=
  System.reachable_of_exec [(0, .new), (0, .new), (0, .setResult 0), (0, .complete)]
    { oneOpen with shared := Shared.empty } oneOpen (.init _ ⟨rfl, oneOpen_idle⟩) (by decide)

/-- `WaitAll` of the two tasks has made its own. -/
def oneOpenCall : Call where
  caller := 0
  tasks := [0, 1]
  t := 2

/-- Nothing has been registered yet. -/
def oneOpenStart : Progress where
  machine :=
    { shared := { oneOpen.shared.create.begin 2 with pledged := [2, 1] }
      threads := oneOpen.threads }
  todo := [0, 1]
  remaining := 2
  inner := []
  point := fun _ => .decrement
  calls := 0

theorem oneOpenStart_initial : Initial oneOpenCall oneOpenStart where
  made := by
    refine ⟨oneOpen, oneOpen_reachable, by decide, rfl, ?_⟩
    intro x hx
    unfold oneOpenCall at hx
    simp only [List.mem_cons, List.not_mem_nil, or_false] at hx
    rcases hx with rfl | rfl
    · exact ⟨_, rfl, fun _ => rfl⟩
    · exact ⟨_, rfl, fun _ => rfl⟩
  distinct := by decide
  todo := rfl
  remaining := rfl
  inner := rfl
  point := fun _ => rfl
  calls := rfl

/-- A thread of the pool runs the continuation of the completed task, and the
    other task is completed on a third thread. -/
def oneOpenRun : List Label :=
  [.register, .register, .other (1, .take), .other (1, .invoke), .decrement 1, .returns 1,
    .other (1, .complete), .other (2, .setResult 1), .other (2, .complete), .other (2, .invoke),
    .decrement 2, .setResult 2, .other (2, .complete), .returns 2, .other (2, .complete),
    .other (2, .leave)]

/-- Two tasks, one of them completed before: the new one is completed in the
    end. -/
theorem waitAll_oneOpen : ∃ p, (system oneOpenCall).Reachable p ∧
    p.machine.shared.completed 2 = true ∧ p.calls + p.dues ≤ 1 := by
  rcases System.exists_exec (step oneOpenCall) oneOpenStart oneOpenRun
    (fun p => p.machine.shared.workerItems == [] && p.machine.threads == oneOpen.threads &&
      !p.inCall oneOpenCall && p.machine.shared.completed 0 && p.machine.shared.completed 1)
    (by decide +kernel) with ⟨p, hexec, hend⟩
  simp only [Bool.and_eq_true, beq_iff_eq, Bool.not_eq_true'] at hend
  rcases hend with ⟨⟨⟨⟨hitems, hthreads⟩, hout⟩, hfirst⟩, hsecond⟩
  have hreach := System.reachable_of_exec oneOpenRun oneOpenStart p
    (.init _ oneOpenStart_initial) hexec
  have hspec := waitAll_spec oneOpenCall hreach
  refine ⟨p, hreach, hspec.2.2 hout ⟨hitems, fun stack hstack => ?_⟩ ?_, hspec.2.1.1⟩
  · rw [hthreads] at hstack
    exact oneOpen_idle stack hstack
  · intro x hx
    unfold oneOpenCall at hx
    simp only [List.mem_cons, List.not_mem_nil, or_false] at hx
    rcases hx with rfl | rfl
    · exact hfirst
    · exact hsecond

end WaitAll

end AwaitAsync

end BlogSample
