import BlogSample.Theory.Transition

/-!
# Tasks and their Thread Pool

A task that other code waits for, and the threads that complete it. Everything
the threads share is in `Shared`: the tasks, the items of the pool, and a log
of what user code did. A thread is a stack of frames, the innermost call
first.

A call of `ContinueWith` on a task that is not completed stores its callback
in the one field the task has for it, so a callback that is there already is
lost. `Complete` invokes the stored callback while it holds the lock of the
task, which is the frame `unlock`. `SetException` has an empty body.

User code is an application thread, an `Action`, a `Func` or the body of an
enumerator. It may make any of the calls, on any task, in any order, and as
often as it likes. `Wait` and the awaiter reach the fields of a task by
`ContinueWith(Action)`, `WaitAll` and `Delay` by a new task whose `SetResult`
they call later, so they are user code too.

## Main definitions

* `MyTask`: The fields of a task.
* `Callback`: What `ContinueWith` and `Run` hand over.
* `Frame`: A call that a thread is in.
* `Shared`: What the threads share.
* `advance`: One step of the innermost call of a thread.
* `Move`: The same, case by case.
* `step`: One step of a thread, if the lock it needs is free.
* `system`: The runs of some threads.

## Theorems

* `Shared.continueWith_cases`: What a call of `ContinueWith` does.
* `Shared.setResult_cases`: What a call of `SetResult` does.
* `advance_move`: What a step of the innermost call does.
* `step_cases`: What a step of a thread does.
* `calls_move`, `calls_before`: What it does to the calls the threads are in.
-/

namespace BlogSample

namespace AwaitAsync

open Transition

/-- What user code throws. -/
structure Exception where
  message : String
  deriving DecidableEq

/-- An `Action` that a callback runs: one of the user, the one that completes
    the task `t` of a `Func` after the task `next` it returned, or the
    `MoveNext` of the `Iterate` that completes `t`. -/
inductive Action
  | user
  | forward (t next : Nat)
  | moveNext (t : Nat)
  deriving DecidableEq

/-- The callback that runs an `Action` or a `Func<MyTask>`, and completes the
    task `t`. -/
inductive Callback
  | action (t : Nat) (action : Action)
  | func (t : Nat)
  deriving DecidableEq

/-- The fields of a task. -/
@[ext]
structure MyTask where
  completed : Bool
  exception : Option Exception
  continuation : Option Callback
  deriving DecidableEq

/-- What a call of `Wait` comes to, if nothing else happens. -/
inductive WaitResult
  | blocks
  | throwsAggregate (exception : Exception)
  | returns
  deriving DecidableEq

namespace MyTask

/-- `new MyTask()`. -/
def new : MyTask :=
  { completed := false, exception := none, continuation := none }

/-- `Wait`: it blocks until the task is completed, and throws what the task
    has stored. -/
def wait (task : MyTask) : WaitResult :=
  if task.completed = false then .blocks
  else match task.exception with
    | some exception => .throwsAggregate exception
    | none => .returns

end MyTask

/-- A call that a thread is in: code of the application, the loop of a thread
    of the pool, a callback that is about to run, the user code of a callback
    or of an enumerator for the task `t`, a call of `SetResult`, and the end of
    the lock that `Complete` holds. -/
inductive Frame
  | client
  | worker
  | invoke (callback : Callback)
  | action (t : Nat)
  | func (t : Nat)
  | enumerator (t : Nat)
  | setResult (t : Nat)
  | unlock (t : Nat)
  deriving DecidableEq

/-- Is this user code, which may call anything? -/
def Frame.user : Frame → Bool
  | .client | .action _ | .func _ | .enumerator _ => true
  | .worker | .invoke _ | .setResult _ | .unlock _ => false

/-- What the threads share: the tasks, the items of the pool, the tasks made
    by user code whose `SetResult` has not been called, and a log. The log has
    the tasks whose work has begun, what user code threw for which task, which
    task a `Func` returned, and the user's actions registered on a task, each
    with the task it was given. -/
@[ext]
structure Shared where
  tasks : List MyTask
  workerItems : List Callback
  pledged : List Nat
  begun : List Nat
  raised : List (Nat × Exception)
  returned : List (Nat × Nat)
  registered : List (Nat × Nat)
  deriving DecidableEq

namespace Shared

/-- No task, and nothing to do. -/
def empty : Shared :=
  { tasks := [], workerItems := [], pledged := [], begun := [], raised := [],
    returned := [], registered := [] }

/-- `IsCompleted`, of the task `t`. -/
def completed (m : Shared) (t : Nat) : Bool :=
  m.tasks[t]?.any (·.completed)

/-- `MyTask t = new()`. Its number is the number of tasks so far. -/
def create (m : Shared) : Shared :=
  { m with tasks := m.tasks ++ [MyTask.new] }

/-- `MyThreadPool.QueueUserWorkItem`. -/
def queueUserWorkItem (m : Shared) (callback : Callback) : Shared :=
  { m with workerItems := m.workerItems ++ [callback] }

/-- Write the fields of the task `t`. -/
def write (m : Shared) (t : Nat) (task : MyTask) : Shared :=
  { m with tasks := m.tasks.set t task }

/-- Both overloads of `ContinueWith` on the task `t`, which differ in the
    callback they make for the new task. -/
def continueWith (m : Shared) (t : Nat) (callback : Nat → Callback) : Option Shared :=
  match m.tasks[t]? with
  | none => none
  | some task =>
      if task.completed = true then
        some (m.create.queueUserWorkItem (callback m.tasks.length))
      else
        some (m.create.write t { task with continuation := some (callback m.tasks.length) })

/-- `ContinueWith(Action)`. -/
def continueWithAction (m : Shared) (t : Nat) (action : Action) : Option Shared :=
  m.continueWith t (fun new => .action new action)

/-- `ContinueWith(Func<MyTask>)`. -/
def continueWithFunc (m : Shared) (t : Nat) : Option Shared :=
  m.continueWith t (fun new => .func new)

/-- `Run`. -/
def run (m : Shared) : Shared :=
  m.create.queueUserWorkItem (.action m.tasks.length .user)

/-- `SetException(Exception exception) { }`. -/
def setException (m : Shared) (_t : Nat) (_exception : Exception) : Shared :=
  m

/-- `Complete`: what is shared afterwards, and the calls it makes under the
    lock. There is no result if the task is completed already, which is the
    `InvalidOperationException`. -/
def complete (m : Shared) (t : Nat) (exception : Option Exception) :
    Option (Shared × List Frame) :=
  match m.tasks[t]? with
  | none => none
  | some task =>
      if task.completed = true then none
      else
        some (m.write t { task with completed := true, exception := exception },
          match task.continuation with
          | some callback => [.invoke callback, .unlock t]
          | none => [])

/-- `SetResult`. -/
def setResult (m : Shared) (t : Nat) : Option (Shared × List Frame) :=
  m.complete t none

/-- The work of the task `t` begins. -/
def begin (m : Shared) (t : Nat) : Shared :=
  { m with begun := t :: m.begun }

/-- The body of a callback, up to its first user code. The action of a `Func`
    looks at the exception of the task that was returned. -/
def invoke (m : Shared) : Callback → Option (Shared × List Frame)
  | .action t .user => some (m.begin t, [.action t])
  | .action t (.forward outer next) =>
      match m.tasks[next]? with
      | none => none
      | some task =>
          match task.exception with
          | some exception => some ((m.begin t).setException outer exception, [.setResult t])
          | none => some (m.begin t, [.setResult outer, .setResult t])
  | .action t (.moveNext outer) => some (m.begin t, [.enumerator outer, .setResult t])
  | .func t => some (m.begin t, [.func t])

/-- A `catch` block: user code threw, for the task `t`. -/
def caught (m : Shared) (t : Nat) (exception : Exception) : Shared :=
  { m with raised := (t, exception) :: m.raised }.setException t exception

end Shared

/-- What a thread does next. -/
inductive Act
  | take
  | invoke
  | run
  | continueWith (t : Nat)
  | continueWithFunc (t : Nat)
  | iterate
  | new
  | setResult (t : Nat)
  | returns
  | returnsTask (next : Nat)
  | yields (next : Nat)
  | ends
  | throws (exception : Exception)
  | complete
  | leave
  deriving DecidableEq

/-- The task that an act calls `ContinueWith` on. -/
def Act.registersOn : Act → Option Nat
  | .continueWith t | .continueWithFunc t | .returnsTask t | .yields t => some t
  | _ => none

/-- The task whose lock an act takes. -/
def Act.locks (act : Act) (frame : Frame) : Option Nat :=
  match act, frame with
  | .complete, .setResult t => some t
  | _, _ => act.registersOn

/-- A call that user code makes: what is shared afterwards, and the calls it
    makes itself. -/
def call (m : Shared) : Act → Option (Shared × List Frame)
  | .run => some (m.run, [])
  | .continueWith t =>
      (m.continueWithAction t .user).map
        (fun m' => ({ m' with registered := (t, m.tasks.length) :: m'.registered }, []))
  | .continueWithFunc t => (m.continueWithFunc t).map (fun m' => (m', []))
  | .iterate => some (m.create.begin m.tasks.length, [.enumerator m.tasks.length])
  | .new =>
      some ({ m.create.begin m.tasks.length with pledged := m.tasks.length :: m.pledged }, [])
  | .setResult t =>
      if t ∈ m.pledged then some ({ m with pledged := m.pledged.erase t }, [.setResult t])
      else none
  | _ => none

/-- One step of the innermost call of a thread: what is shared afterwards, and
    the calls it is then in. -/
def advance (m : Shared) (frame : Frame) (act : Act) : Option (Shared × List Frame) :=
  match act, frame with
  | .take, .worker =>
      match m.workerItems with
      | [] => none
      | item :: items => some ({ m with workerItems := items }, [.invoke item, .worker])
  | .invoke, .invoke callback => m.invoke callback
  | .returns, .action t => some (m, [.setResult t])
  | .returnsTask next, .func t =>
      ({ m with returned := (t, next) :: m.returned }.continueWithAction next
        (.forward t next)).map (fun m' => (m', []))
  | .yields next, .enumerator t =>
      (m.continueWithAction next (.moveNext t)).map (fun m' => (m', []))
  | .ends, .enumerator t => some (m, [.setResult t])
  | .throws exception, .action t => some (m.caught t exception, [])
  | .throws exception, .func t => some (m.caught t exception, [])
  | .throws exception, .enumerator t => some (m.caught t exception, [])
  | .complete, .setResult t => m.setResult t
  | .leave, .unlock _ => some (m, [])
  | act, frame =>
      if frame.user = true then (call m act).map (fun r => (r.1, r.2 ++ [frame])) else none

/-- The innermost call of a thread, one step of it, and what comes of it. This
    is `advance` case by case. -/
inductive Move (m : Shared) : Frame → Act → Shared → List Frame → Prop
  | take (item : Callback) (items : List Callback) (h : m.workerItems = item :: items) :
      Move m .worker .take { m with workerItems := items } [.invoke item, .worker]
  | invokeUser (t : Nat) :
      Move m (.invoke (.action t .user)) .invoke (m.begin t) [.action t]
  | invokeForward (t outer next : Nat) (task : MyTask) (h : m.tasks[next]? = some task)
      (hnone : task.exception = none) :
      Move m (.invoke (.action t (.forward outer next))) .invoke (m.begin t)
        [.setResult outer, .setResult t]
  | invokeForwardException (t outer next : Nat) (task : MyTask) (exception : Exception)
      (h : m.tasks[next]? = some task) (hsome : task.exception = some exception) :
      Move m (.invoke (.action t (.forward outer next))) .invoke (m.begin t) [.setResult t]
  | invokeMoveNext (t outer : Nat) :
      Move m (.invoke (.action t (.moveNext outer))) .invoke (m.begin t)
        [.enumerator outer, .setResult t]
  | invokeFunc (t : Nat) :
      Move m (.invoke (.func t)) .invoke (m.begin t) [.func t]
  | run (frame : Frame) (h : frame.user = true) :
      Move m frame .run m.run [frame]
  | continueWith (frame : Frame) (t : Nat) (m' : Shared) (h : frame.user = true)
      (hm : m.continueWithAction t .user = some m') :
      Move m frame (.continueWith t)
        { m' with registered := (t, m.tasks.length) :: m'.registered } [frame]
  | continueWithFunc (frame : Frame) (t : Nat) (m' : Shared) (h : frame.user = true)
      (hm : m.continueWithFunc t = some m') :
      Move m frame (.continueWithFunc t) m' [frame]
  | iterate (frame : Frame) (h : frame.user = true) :
      Move m frame .iterate (m.create.begin m.tasks.length)
        [.enumerator m.tasks.length, frame]
  | new (frame : Frame) (h : frame.user = true) :
      Move m frame .new
        { m.create.begin m.tasks.length with pledged := m.tasks.length :: m.pledged } [frame]
  | setResult (frame : Frame) (t : Nat) (h : frame.user = true) (ht : t ∈ m.pledged) :
      Move m frame (.setResult t) { m with pledged := m.pledged.erase t }
        [.setResult t, frame]
  | returns (t : Nat) : Move m (.action t) .returns m [.setResult t]
  | returnsTask (t next : Nat) (m' : Shared)
      (hm : { m with returned := (t, next) :: m.returned }.continueWithAction next
        (.forward t next) = some m') :
      Move m (.func t) (.returnsTask next) m' []
  | yields (t next : Nat) (m' : Shared)
      (hm : m.continueWithAction next (.moveNext t) = some m') :
      Move m (.enumerator t) (.yields next) m' []
  | ends (t : Nat) : Move m (.enumerator t) .ends m [.setResult t]
  | actionThrows (t : Nat) (exception : Exception) :
      Move m (.action t) (.throws exception) (m.caught t exception) []
  | funcThrows (t : Nat) (exception : Exception) :
      Move m (.func t) (.throws exception) (m.caught t exception) []
  | enumeratorThrows (t : Nat) (exception : Exception) :
      Move m (.enumerator t) (.throws exception) (m.caught t exception) []
  | complete (t : Nat) (m' : Shared) (frames : List Frame)
      (hm : m.setResult t = some (m', frames)) :
      Move m (.setResult t) .complete m' frames
  | leave (t : Nat) : Move m (.unlock t) .leave m []

/-- What the threads share, and the calls each of them is in. -/
@[ext]
structure State where
  shared : Shared
  threads : List (List Frame)
  deriving DecidableEq

namespace State

/-- Does no other thread hold the lock of the task `t`? -/
def free (s : State) (th t : Nat) : Bool :=
  (s.threads.eraseIdx th).all (fun stack => !stack.contains (.unlock t))

/-- The thread `th` is in the calls `stack`. -/
def setThread (s : State) (th : Nat) (stack : List Frame) : State :=
  { s with threads := s.threads.set th stack }

end State

/-- One step of the thread `th`, if the lock it needs is free. -/
def step (s : State) : Nat × Act → Option State
  | (th, act) =>
      match s.threads[th]? with
      | some (frame :: rest) =>
          if (act.locks frame).all (s.free th) = true then
            (advance s.shared frame act).map
              (fun r => { s.setThread th (r.2 ++ rest) with shared := r.1 })
          else none
      | _ => none

/-- What a call of `ContinueWith` does: there is a new task, and its callback is
    queued or stored, in place of what was stored before. -/
theorem Shared.continueWith_cases {m m' : Shared} {t : Nat} {callback : Nat → Callback}
    (h : m.continueWith t callback = some m') :
    ∃ task, m.tasks[t]? = some task ∧
      ((task.completed = true ∧ m' = m.create.queueUserWorkItem (callback m.tasks.length)) ∨
        (task.completed = false ∧ m' = m.create.write t
          { task with continuation := some (callback m.tasks.length) })) := by
  unfold Shared.continueWith at h
  cases htask : m.tasks[t]? with
  | none =>
      rw [htask] at h
      cases h
  | some task =>
      simp only [htask] at h
      refine ⟨task, rfl, ?_⟩
      by_cases hcompleted : task.completed = true
      · left
        rw [if_pos hcompleted, Option.some.injEq] at h
        exact ⟨hcompleted, h.symm⟩
      · right
        rw [if_neg hcompleted, Option.some.injEq] at h
        exact ⟨eq_false_of_ne_true hcompleted, h.symm⟩

/-- What a call of `SetResult` does: the task was not completed, and is now,
    and what was stored is about to run. -/
theorem Shared.setResult_cases {m m' : Shared} {t : Nat} {frames : List Frame}
    (h : m.setResult t = some (m', frames)) :
    ∃ task, m.tasks[t]? = some task ∧ task.completed = false ∧
      m' = m.write t { task with completed := true, exception := none } ∧
      ((task.continuation = none ∧ frames = []) ∨
        ∃ callback, task.continuation = some callback ∧
          frames = [.invoke callback, .unlock t]) := by
  unfold Shared.setResult Shared.complete at h
  cases htask : m.tasks[t]? with
  | none =>
      rw [htask] at h
      cases h
  | some task =>
      simp only [htask] at h
      by_cases hcompleted : task.completed = true
      · rw [if_pos hcompleted] at h
        cases h
      · rw [if_neg hcompleted, Option.some.injEq, Prod.mk.injEq] at h
        rcases h with ⟨hm, hframes⟩
        refine ⟨task, rfl, eq_false_of_ne_true hcompleted, hm.symm, ?_⟩
        cases hcontinuation : task.continuation with
        | none =>
            rw [hcontinuation] at hframes
            exact .inl ⟨rfl, hframes.symm⟩
        | some callback =>
            rw [hcontinuation] at hframes
            exact .inr ⟨callback, rfl, hframes.symm⟩

/-- What invoking a callback does. -/
theorem invoke_move {m m' : Shared} {callback : Callback} {frames : List Frame}
    (h : m.invoke callback = some (m', frames)) :
    Move m (.invoke callback) .invoke m' frames := by
  rcases callback with ⟨t, _ | ⟨outer, next⟩ | outer⟩ | t
  · cases h
    exact .invokeUser t
  · simp only [Shared.invoke] at h
    cases htask : m.tasks[next]? with
    | none =>
        rw [htask] at h
        cases h
    | some task =>
        rw [htask] at h
        cases hexception : task.exception with
        | none =>
            simp only [hexception] at h
            cases h
            exact .invokeForward t outer next task htask hexception
        | some exception =>
            simp only [hexception] at h
            cases h
            exact .invokeForwardException t outer next task exception htask hexception
  · cases h
    exact .invokeMoveNext t outer
  · cases h
    exact .invokeFunc t

/-- What a call that user code makes does. -/
theorem call_move {m m' : Shared} {frame : Frame} {act : Act} {frames : List Frame}
    (huser : frame.user = true) (h : call m act = some (m', frames)) :
    Move m frame act m' (frames ++ [frame]) := by
  cases act with
  | run =>
      cases h
      exact .run frame huser
  | continueWith t =>
      simp only [call, Option.map_eq_some_iff, Prod.mk.injEq] at h
      rcases h with ⟨m₁, hm, rfl, rfl⟩
      exact .continueWith frame t m₁ huser hm
  | continueWithFunc t =>
      simp only [call, Option.map_eq_some_iff, Prod.mk.injEq] at h
      rcases h with ⟨m₁, hm, rfl, rfl⟩
      exact .continueWithFunc frame t m₁ huser hm
  | iterate =>
      cases h
      exact .iterate frame huser
  | new =>
      cases h
      exact .new frame huser
  | setResult t =>
      simp only [call] at h
      -- `SetResult` is for a promise that has not been kept.
      by_cases ht : t ∈ m.pledged
      · rw [if_pos ht] at h
        cases h
        exact .setResult frame t huser ht
      · rw [if_neg ht] at h
        cases h
  | take | invoke | returns | returnsTask | yields | ends | throws | complete | leave =>
      cases h

/-- What a step of the innermost call does. -/
theorem advance_move {m m' : Shared} {frame : Frame} {act : Act} {frames : List Frame}
    (h : advance m frame act = some (m', frames)) : Move m frame act m' frames := by
  unfold advance at h
  split at h
  · split at h
    · cases h
    · rename_i item items hitems
      cases h
      exact .take item items hitems
  · exact invoke_move h
  · cases h
    exact .returns _
  · simp only [Option.map_eq_some_iff, Prod.mk.injEq] at h
    rcases h with ⟨m₁, hm, rfl, rfl⟩
    exact .returnsTask _ _ _ hm
  · simp only [Option.map_eq_some_iff, Prod.mk.injEq] at h
    rcases h with ⟨m₁, hm, rfl, rfl⟩
    exact .yields _ _ _ hm
  · cases h
    exact .ends _
  · cases h
    exact .actionThrows _ _
  · cases h
    exact .funcThrows _ _
  · cases h
    exact .enumeratorThrows _ _
  · exact .complete _ _ _ h
  · cases h
    exact .leave _
  -- What is left are calls that user code makes.
  · by_cases huser : frame.user = true
    · rw [if_pos huser] at h
      simp only [Option.map_eq_some_iff, Prod.mk.injEq] at h
      rcases h with ⟨⟨m₁, calls⟩, hcall, rfl, rfl⟩
      exact call_move huser hcall
    · rw [if_neg huser] at h
      cases h

/-- What a step of a thread does: its innermost call makes a move, and
    nothing happens to the other threads. -/
theorem step_cases {s s' : State} {th : Nat} {act : Act} (h : step s (th, act) = some s') :
    ∃ frame rest m' frames, s.threads[th]? = some (frame :: rest) ∧
      (act.locks frame).all (s.free th) = true ∧ Move s.shared frame act m' frames ∧
      s' = { shared := m', threads := s.threads.set th (frames ++ rest) } := by
  unfold step at h
  simp only at h
  split at h
  · rename_i frame rest hthread
    by_cases hfree : (act.locks frame).all (s.free th) = true
    · rw [if_pos hfree] at h
      simp only [Option.map_eq_some_iff] at h
      rcases h with ⟨⟨m', frames⟩, hadvance, rfl⟩
      exact ⟨frame, rest, m', frames, hthread, hfree, advance_move hadvance, rfl⟩
    · rw [if_neg hfree] at h
      cases h
  · cases h

/-- Some thread is in a call of which `p` holds. -/
def Calls (threads : List (List Frame)) (p : Frame → Prop) : Prop :=
  ∃ stack ∈ threads, ∃ frame ∈ stack, p frame

/-- A thread that moved is in its new calls. -/
theorem calls_of_frames {threads : List (List Frame)} {th : Nat} {frame : Frame}
    {rest frames : List Frame} {p : Frame → Prop} (h : threads[th]? = some (frame :: rest))
    (hp : ∃ f ∈ frames, p f) : Calls (threads.set th (frames ++ rest)) p := by
  rcases hp with ⟨f, hf, hp⟩
  have hth : th < threads.length := (List.getElem?_eq_some_iff.mp h).1
  exact ⟨frames ++ rest, List.mem_set hth _, f, List.mem_append_left _ hf, hp⟩

/-- A move replaces the innermost call of one thread, and no other call. -/
theorem calls_move {threads : List (List Frame)} {th : Nat} {frame : Frame}
    {rest : List Frame} {p : Frame → Prop} (h : threads[th]? = some (frame :: rest))
    (frames : List Frame) (hp : Calls threads p) :
    p frame ∨ Calls (threads.set th (frames ++ rest)) p := by
  rcases hp with ⟨stack, hstack, f, hf, hp⟩
  have hth : th < threads.length := (List.getElem?_eq_some_iff.mp h).1
  rcases List.getElem?_of_mem hstack with ⟨i, hi⟩
  by_cases hith : i = th
  · rw [hith, h, Option.some.injEq] at hi
    subst hi
    rcases List.mem_cons.mp hf with rfl | hf
    · exact .inl hp
    · exact .inr ⟨frames ++ rest, List.mem_set hth _, f, List.mem_append_right _ hf, hp⟩
  · refine .inr ⟨stack, ?_, f, hf, hp⟩
    refine List.mem_of_getElem? (i := i) ?_
    rw [List.getElem?_set_ne (fun h => hith h.symm)]
    exact hi

/-- A call that a thread is in after a move is one of the new calls, or was
    there before. -/
theorem calls_before {threads : List (List Frame)} {th : Nat} {frame : Frame}
    {rest frames : List Frame} {p : Frame → Prop} (h : threads[th]? = some (frame :: rest))
    (hp : Calls (threads.set th (frames ++ rest)) p) :
    (∃ f ∈ frames, p f) ∨ Calls threads p := by
  rcases hp with ⟨stack, hstack, f, hf, hp⟩
  rcases List.mem_or_eq_of_mem_set hstack with hstack | rfl
  · exact .inr ⟨stack, hstack, f, hf, hp⟩
  · rcases List.mem_append.mp hf with hf | hf
    · exact .inl ⟨f, hf, hp⟩
    · exact .inr ⟨frame :: rest, List.mem_of_getElem? h, f, List.mem_cons_of_mem _ hf, hp⟩

/-- A thread with nothing to do: an application thread between two calls, or a
    thread of the pool that waits for an item. -/
def Idle (stack : List Frame) : Prop :=
  stack = [.client] ∨ stack = [.worker]

/-- Nothing has happened yet. -/
def Initial (s : State) : Prop :=
  s.shared = Shared.empty ∧ ∀ stack ∈ s.threads, Idle stack

/-- The items of the pool have been run, and every call has returned. -/
def Drained (s : State) : Prop :=
  s.shared.workerItems = [] ∧ ∀ stack ∈ s.threads, Idle stack

/-- The runs of some threads. -/
def system : System State (Nat × Act) :=
  System.ofFn Initial step

/-- An application thread, and a thread of the pool. -/
def twoThreads : State :=
  { shared := Shared.empty, threads := [[.client], [.worker]] }

theorem twoThreads_initial : Initial twoThreads := by
  refine ⟨rfl, fun stack hstack => ?_⟩
  rcases List.mem_cons.mp hstack with rfl | hstack
  · exact .inl rfl
  · exact .inr (List.mem_singleton.mp hstack)

theorem twoThreads_drained {s : State} (hitems : s.shared.workerItems = [])
    (hthreads : s.threads = [[.client], [.worker]]) : Drained s := by
  refine ⟨hitems, fun stack hstack => ?_⟩
  rw [hthreads] at hstack
  exact twoThreads_initial.2 stack hstack

/-- Does a registration that this step makes write over nothing, and does it
    not throw? -/
def plain (s : State) (label : Nat × Act) : Bool :=
  label.2.registersOn.all (fun t =>
    s.shared.tasks[t]?.all (fun task => task.completed || task.continuation.isNone)) &&
  match label.2 with
  | .throws _ => false
  | _ => true

end AwaitAsync

end BlogSample
