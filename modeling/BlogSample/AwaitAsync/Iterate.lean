import BlogSample.AwaitAsync.Countdown

/-!
# A Call of `Iterate`

`Iterate` makes a task and advances an enumerator of tasks. When the
enumerator yields a task, the same function is registered there as its
continuation, and runs again, on whatever thread, under the lock of the task
or as an item of the pool. When the enumerator ends, `SetResult` of the new
task is called.

So the rest of a call is in one place at any time: stored on the task that was
yielded last, in the pool, about to be invoked, in the body of the enumerator,
or about to complete the new task. That it is in one place only is what the
accounting of the work of the new task says, and a step of other code leaves it
there or moves it to the next place.

Other code completes the listed tasks whenever it likes, also before they are
yielded, and the body of the enumerator may call anything. Nothing else is
registered on a listed task, and the enumerator yields the list and ends: it
does not throw.

## Main definitions

* `Call`: The thread, the list and the new task.
* `Progress`: The machine, and what the enumerator has done.
* `Apart`: A step of other code.
* `step`: A step of the machine, or of the enumerator.
* `Stage`: Where the rest of a call is.

## Theorems

* `step_moves`: What a step does, case by case.
* `Stage.other`, `Stage.yields`, `Stage.ends_step`: What it does to the rest
  of a call.
* `iterate_spec`: The tasks are run one after another.
-/

namespace BlogSample

namespace AwaitAsync

open Transition

namespace Iterate

/-- A call of `Iterate`: the thread that makes it, the tasks that the
    enumerator yields, and the task that the call returns. -/
structure Call where
  caller : Nat
  tasks : List Nat
  t : Nat

/-- The machine, how many tasks the enumerator has yielded, how often it has
    been advanced, and how often it has ended. -/
structure Progress where
  machine : State
  yielded : Nat
  advances : Nat
  ended : Nat

/-- Is the thread in the body of the enumerator? -/
def inBody (c : Call) (s : State) (th : Nat) : Bool :=
  match s.threads[th]? with
  | some (.enumerator t :: _) => t == c.t
  | _ => false

/-- Does an act leave the body of an enumerator? -/
def leavesBody : Act → Bool
  | .yields _ | .ends | .throws _ => true
  | _ => false

/-- A step of other code: nothing is registered on a listed task, and the body
    of the enumerator is not left. -/
def apart (c : Call) (s : State) (label : Nat × Act) : Bool :=
  !(label.2.registersOn.any (· ∈ c.tasks)) && !(inBody c s label.1 && leavesBody label.2)

/-- Does a step call `e.MoveNext`? -/
def advancesOn (c : Call) (s : State) (label : Nat × Act) : Bool :=
  match label.2, s.threads[label.1]? with
  | .invoke, some (.invoke (.action _ (.moveNext t)) :: _) => t == c.t
  | _, _ => false

/-- What happens next: a step of other code, or the enumerator yields the next
    task of the list, or ends. -/
inductive Label
  | other (label : Nat × Act)
  | yields (th : Nat)
  | ends (th : Nat)

/-- A step of the machine, or of the enumerator. -/
def step (c : Call) (p : Progress) : Label → Option Progress
  | .other label =>
      if apart c p.machine label = true then
        (AwaitAsync.step p.machine label).map (fun s => { p with
          machine := s
          advances := p.advances + (advancesOn c p.machine label).toNat })
      else none
  | .yields th =>
      match c.tasks[p.yielded]? with
      | none => none
      | some next =>
          if inBody c p.machine th = true then
            (AwaitAsync.step p.machine (th, .yields next)).map (fun s => { p with
              machine := s
              yielded := p.yielded + 1 })
          else none
  | .ends th =>
      if inBody c p.machine th = true ∧ p.yielded = c.tasks.length then
        (AwaitAsync.step p.machine (th, .ends)).map (fun s => { p with
          machine := s
          ended := p.ended + 1 })
      else none

/-- The task has been made, and the enumerator has been called once. -/
structure Initial (c : Call) (p : Progress) : Prop where
  made : ∃ s, AwaitAsync.system.Reachable s ∧
    AwaitAsync.step s (c.caller, .iterate) = some p.machine ∧ c.t = s.shared.tasks.length
  yielded : p.yielded = 0
  advances : p.advances = 1
  ended : p.ended = 0

/-- The runs of a machine from the beginning of a call on. -/
def system (c : Call) : System Progress Label :=
  System.ofFn (Initial c) (step c)

/-- What `apart` tests. -/
structure Apart (c : Call) (s : State) (label : Nat × Act) : Prop where
  registers : ∀ x ∈ c.tasks, label.2.registersOn ≠ some x
  stays : inBody c s label.1 = true → leavesBody label.2 = false

theorem apart_iff {c : Call} {s : State} {label : Nat × Act} (h : apart c s label = true) :
    Apart c s label := by
  unfold apart at h
  rw [Bool.and_eq_true, Bool.not_eq_true', Bool.not_eq_true', Bool.and_eq_false_imp] at h
  rcases h with ⟨hregisters, hstays⟩
  refine ⟨?_, hstays⟩
  intro x hx heq
  rw [heq, Option.any_some, decide_eq_false_iff_not] at hregisters
  exact hregisters hx

/-- A thread in the body of the enumerator. -/
theorem inBody_iff {c : Call} {s : State} {th : Nat} :
    inBody c s th = true ↔ ∃ rest, s.threads[th]? = some (.enumerator c.t :: rest) := by
  unfold inBody
  constructor
  · intro h
    split at h
    · rename_i t rest hthread
      rw [beq_iff_eq] at h
      subst h
      exact ⟨rest, hthread⟩
    · cases h
  · intro h
    rcases h with ⟨rest, hthread⟩
    rw [hthread]
    exact beq_self_eq_true c.t

/-- `e.MoveNext` is called by a thread that invokes the continuation. -/
theorem advancesOn_iff {c : Call} {s : State} {label : Nat × Act} :
    advancesOn c s label = true ↔ label.2 = .invoke ∧
      ∃ u rest, s.threads[label.1]? = some (.invoke (.action u (.moveNext c.t)) :: rest) := by
  unfold advancesOn
  constructor
  · intro h
    split at h
    · rename_i u t rest hact hthread
      rw [beq_iff_eq] at h
      subst h
      exact ⟨hact, u, rest, hthread⟩
    · cases h
  · intro h
    rcases h with ⟨hact, u, rest, hthread⟩
    rw [hact, hthread]
    exact beq_self_eq_true c.t

/-- What a step does, case by case. -/
inductive Moves (c : Call) (p : Progress) : Progress → Prop
  | other (label : Nat × Act) (s : State) (hapart : Apart c p.machine label)
      (hstep : AwaitAsync.step p.machine label = some s) :
      Moves c p { p with
        machine := s
        advances := p.advances + (advancesOn c p.machine label).toNat }
  | yields (th next : Nat) (rest : List Frame) (s : State)
      (hnext : c.tasks[p.yielded]? = some next)
      (hthread : p.machine.threads[th]? = some (.enumerator c.t :: rest))
      (hstep : AwaitAsync.step p.machine (th, .yields next) = some s) :
      Moves c p { p with
        machine := s
        yielded := p.yielded + 1 }
  | ends (th : Nat) (rest : List Frame) (s : State) (hall : p.yielded = c.tasks.length)
      (hthread : p.machine.threads[th]? = some (.enumerator c.t :: rest))
      (hstep : AwaitAsync.step p.machine (th, .ends) = some s) :
      Moves c p { p with
        machine := s
        ended := p.ended + 1 }

theorem step_moves {c : Call} {p p' : Progress} {label : Label} (h : step c p label = some p') :
    Moves c p p' := by
  cases label with
  | other label =>
      simp only [step] at h
      by_cases hapart : apart c p.machine label = true
      · rw [if_pos hapart, Option.map_eq_some_iff] at h
        rcases h with ⟨s, hstep, rfl⟩
        exact .other label s (apart_iff hapart) hstep
      · rw [if_neg hapart] at h
        cases h
  | yields th =>
      simp only [step] at h
      cases hnext : c.tasks[p.yielded]? with
      | none =>
          rw [hnext] at h
          cases h
      | some next =>
          simp only [hnext] at h
          -- The thread is inside of `MoveNext`.
          by_cases hbody : inBody c p.machine th = true
          · rw [if_pos hbody, Option.map_eq_some_iff] at h
            rcases h with ⟨s, hstep, rfl⟩
            rcases inBody_iff.mp hbody with ⟨rest, hthread⟩
            exact .yields th next rest s hnext hthread hstep
          · rw [if_neg hbody] at h
            cases h
  | ends th =>
      simp only [step] at h
      by_cases hends : inBody c p.machine th = true ∧ p.yielded = c.tasks.length
      · rw [if_pos hends, Option.map_eq_some_iff] at h
        rcases h with ⟨s, hstep, rfl⟩
        rcases inBody_iff.mp hends.1 with ⟨rest, hthread⟩
        exact .ends th rest s hends.2 hthread hstep
      · rw [if_neg hends] at h
        cases h

variable {s s' : State} {t : Nat}

/-- The work of a task that has begun is in one place. -/
theorem ongoing_le_one (hreach : AwaitAsync.system.Reachable s) (t : Nat) :
    s.ongoing t + s.shared.done t ≤ 1 := by
  have hworks := (accounted hreach).works t
  have honce := begins_le_one hreach t
  omega

/-- A call that goes on with the work of a task. -/
theorem ongoing_of_calls (h : Calls s.threads (fun f => t ∈ f.ongoing)) :
    0 < tally (tally (fun f : Frame => f.ongoing.count t)) s.threads := by
  rcases h with ⟨stack, hstack, f, hf, ht⟩
  have hthreads := le_tally (tally (fun f : Frame => f.ongoing.count t)) hstack
  have hcell := le_tally (fun f : Frame => f.ongoing.count t) hf
  have hpos : 0 < f.ongoing.count t := List.count_pos_iff.mpr ht
  omega

/-- When a callback that goes on with the work of a task is stored or queued,
    or the task is completed, no call does. -/
theorem not_calls_of_elsewhere (hreach : AwaitAsync.system.Reachable s)
    (h : 0 < s.shared.weigh (fun callback => callback.inner.count t) + s.shared.done t) :
    ¬ Calls s.threads (fun f => t ∈ f.ongoing) := by
  intro hcalls
  have hone := ongoing_le_one hreach t
  have hpos := ongoing_of_calls hcalls
  unfold State.ongoing Shared.ongoing at hone
  omega

/-- When the innermost call of a thread goes on with the work of a task, it is
    the only one. -/
theorem calls_unique (hreach : AwaitAsync.system.Reachable s) {th : Nat} {frame f : Frame}
    {rest : List Frame} (hthread : s.threads[th]? = some (frame :: rest))
    (hframe : t ∈ frame.ongoing) (hcalls : Calls s.threads (· = f)) (hf : t ∈ f.ongoing) :
    frame = f := by
  rcases calls_move hthread [] hcalls with rfl | hothers
  · rfl
  -- Both calls would be counted.
  · have hone := ongoing_le_one hreach t
    have hset := tally_threads (fun f : Frame => f.ongoing.count t) hthread []
    have hcount : 0 < frame.ongoing.count t := List.count_pos_iff.mpr hframe
    rcases hothers with ⟨stack, hstack, f', hf', rfl⟩
    have hpos := ongoing_of_calls (s := s.setThread th ([] ++ rest))
      ⟨stack, hstack, f', hf', hf⟩
    unfold State.setThread at hpos
    unfold State.ongoing at hone
    rw [tally_nil] at hset
    dsimp only at hpos
    omega

/-- The first `k` tasks of the list are completed. -/
def Past (c : Call) (s : State) (k : Nat) : Prop :=
  ∀ i x, i < k → c.tasks[i]? = some x → s.shared.completed x = true

/-- Where the rest of a call is, by how many tasks have been yielded, how often
    the enumerator has been advanced, and how often it has ended. -/
inductive Stage (c : Call) (s : State) : Nat → Nat → Nat → Prop
  | waits (k x u : Nat) (task : MyTask) (hk : c.tasks[k]? = some x) (hpast : Past c s k)
      (htask : s.shared.tasks[x]? = some task) (hopen : task.completed = false)
      (hstored : task.continuation = some (.action u (.moveNext c.t))) :
      Stage c s (k + 1) (k + 1) 0
  | queued (k u : Nat) (hpast : Past c s k)
      (h : Callback.action u (.moveNext c.t) ∈ s.shared.workerItems) : Stage c s k k 0
  | invoked (k u : Nat) (hpast : Past c s k)
      (h : Calls s.threads (· = .invoke (.action u (.moveNext c.t)))) : Stage c s k k 0
  | advances (k : Nat) (hpast : Past c s k) (h : Calls s.threads (· = .enumerator c.t)) :
      Stage c s k (k + 1) 0
  | ends (hpast : Past c s c.tasks.length) (h : Calls s.threads (· = .setResult c.t)) :
      Stage c s c.tasks.length (c.tasks.length + 1) 1
  | done (hpast : Past c s c.tasks.length) (h : s.shared.completed c.t = true) :
      Stage c s c.tasks.length (c.tasks.length + 1) 1

variable {c : Call} {th k : Nat} {act : Act}

/-- What is completed stays completed. -/
theorem Past.step (hstep : AwaitAsync.step s (th, act) = some s') (h : Past c s k) :
    Past c s' k := by
  intro i x hi hx
  rcases step_cases hstep with ⟨frame, rest, m', frames, -, -, hmove, rfl⟩
  exact hmove.completed (h i x hi hx)

/-- One more task is completed. -/
theorem Past.succ (h : Past c s k) {x : Nat} (hk : c.tasks[k]? = some x)
    (hx : s.shared.completed x = true) : Past c s (k + 1) := by
  intro i y hi hy
  by_cases hik : i = k
  · rw [hik, hk, Option.some.injEq] at hy
    exact hy ▸ hx
  · exact h i y (by omega) hy

/-- A callback that is stored or queued goes on with the work of its action. -/
theorem weigh_pos_of_stored {x u : Nat} {task : MyTask} (htask : s.shared.tasks[x]? = some task)
    (hopen : task.completed = false)
    (hstored : task.continuation = some (.action u (.moveNext t))) :
    0 < s.shared.weigh (fun callback => callback.inner.count t) := by
  have hcell := le_tally (fun task : MyTask =>
    tally (fun callback : Callback => callback.inner.count t) task.stored)
    (List.mem_of_getElem? htask)
  have hone : tally (fun callback : Callback => callback.inner.count t) task.stored = 1 := by
    rw [task.stored_of_open hopen, hstored]
    exact List.count_singleton_self
  unfold Shared.weigh
  omega

theorem weigh_pos_of_queued {u : Nat}
    (h : Callback.action u (.moveNext t) ∈ s.shared.workerItems) :
    0 < s.shared.weigh (fun callback => callback.inner.count t) := by
  have hitem := le_tally (fun callback : Callback => callback.inner.count t) h
  have hone : (Callback.action u (.moveNext t)).inner.count t = 1 := List.count_singleton_self
  unfold Shared.weigh
  omega

theorem done_of_completed (h : s.shared.completed t = true) : s.shared.done t = 1 := by
  unfold Shared.done
  rw [h]
  rfl

/-- A thread that calls `e.MoveNext` goes on with the new task. -/
theorem calls_of_advancesOn {label : Nat × Act} (h : advancesOn c s label = true) :
    Calls s.threads (fun f => c.t ∈ f.ongoing) := by
  rcases advancesOn_iff.mp h with ⟨-, u, rest, hthread⟩
  exact ⟨_, List.mem_of_getElem? hthread, _, List.mem_cons_self, List.mem_singleton_self c.t⟩

/-- When the rest of a call is in no thread, none calls `e.MoveNext`. -/
theorem not_advancesOn_of_elsewhere (hreach : AwaitAsync.system.Reachable s)
    (h : 0 < s.shared.weigh (fun callback => callback.inner.count c.t) + s.shared.done c.t)
    (label : Nat × Act) : advancesOn c s label = false := by
  rw [← Bool.not_eq_true]
  exact fun hadvances => not_calls_of_elsewhere hreach h (calls_of_advancesOn hadvances)

/-- The call in which the rest is makes the move, or it is left alone, and
    `e.MoveNext` is not called. -/
theorem call_step {f : Frame} (hreach : AwaitAsync.system.Reachable s)
    (hstep : AwaitAsync.step s (th, act) = some s') (hcalls : Calls s.threads (· = f))
    (hf : c.t ∈ f.ongoing) :
    (∃ rest m' frames, s.threads[th]? = some (f :: rest) ∧ Move s.shared f act m' frames ∧
      s' = { shared := m', threads := s.threads.set th (frames ++ rest) }) ∨
    (advancesOn c s (th, act) = false ∧ Calls s'.threads (· = f)) := by
  rcases step_cases hstep with ⟨frame, rest, m', frames, hthread, -, hmove, rfl⟩
  by_cases heq : frame = f
  · subst heq
    exact .inl ⟨rest, m', frames, hthread, hmove, rfl⟩
  · right
    refine ⟨?_, (calls_move hthread frames hcalls).resolve_left heq⟩
    rw [← Bool.not_eq_true]
    intro hadvances
    rcases advancesOn_iff.mp hadvances with ⟨-, u, rest', hinvoke⟩
    have hsame := calls_unique hreach hinvoke (List.mem_singleton_self c.t) hcalls hf
    rw [hthread, Option.some.injEq, List.cons.injEq] at hinvoke
    exact heq (hinvoke.1.trans hsame)

/-- User code that is in the body of an enumerator stays there. -/
theorem mem_of_stays {m m' : Shared} {frames : List Frame}
    (h : Move m (.enumerator t) act m' frames) (hstays : leavesBody act = false) :
    .enumerator t ∈ frames := by
  cases h with
  | run | continueWith | continueWithFunc | new => exact List.mem_cons_self
  | iterate | setResult => exact List.mem_cons_of_mem _ List.mem_cons_self
  | yields | ends | enumeratorThrows => cases hstays

/-- While the rest of a call waits for a task, that is completed, or nothing
    happens to it. -/
theorem Stage.waits_step (hreach : AwaitAsync.system.Reachable s)
    (hapart : Apart c s (th, act)) (hstep : AwaitAsync.step s (th, act) = some s') {x u : Nat}
    {task : MyTask} (hk : c.tasks[k]? = some x) (hpast : Past c s k)
    (htask : s.shared.tasks[x]? = some task) (hopen : task.completed = false)
    (hstored : task.continuation = some (.action u (.moveNext c.t))) :
    Stage c s' (k + 1) (k + 1 + (advancesOn c s (th, act)).toNat) 0 := by
  have hpos := weigh_pos_of_stored htask hopen hstored
  rw [not_advancesOn_of_elsewhere hreach (by omega)]
  have hpast' := hpast.step hstep
  rcases step_cases hstep with ⟨frame, rest, m', frames, hthread, -, hmove, rfl⟩
  rcases hmove.kept_or_invoked (hapart.registers x (List.mem_of_getElem? hk)) htask hstored with
    hsame | ⟨hdone, hframes⟩
  · exact .waits k x u task hk hpast' hsame hopen hstored
  · exact .invoked (k + 1) u (hpast'.succ hk hdone) (calls_of_frames hthread ⟨_, hframes, rfl⟩)

/-- An item of the pool is taken, or nothing happens to it. -/
theorem Stage.queued_step (hreach : AwaitAsync.system.Reachable s)
    (hstep : AwaitAsync.step s (th, act) = some s') {u : Nat} (hpast : Past c s k)
    (hqueued : Callback.action u (.moveNext c.t) ∈ s.shared.workerItems) :
    Stage c s' k (k + (advancesOn c s (th, act)).toNat) 0 := by
  have hpos := weigh_pos_of_queued hqueued
  rw [not_advancesOn_of_elsewhere hreach (by omega)]
  have hpast' := hpast.step hstep
  rcases step_cases hstep with ⟨frame, rest, m', frames, hthread, -, hmove, rfl⟩
  rcases hmove.queued hqueued with hqueued | hframes
  · exact .queued k u hpast' hqueued
  · exact .invoked k u hpast' (calls_of_frames hthread ⟨_, hframes, rfl⟩)

/-- The callback advances the enumerator. -/
theorem Stage.invoked_step (hreach : AwaitAsync.system.Reachable s)
    (hstep : AwaitAsync.step s (th, act) = some s') {u : Nat} (hpast : Past c s k)
    (hcalls : Calls s.threads (· = .invoke (.action u (.moveNext c.t)))) :
    Stage c s' k (k + (advancesOn c s (th, act)).toNat) 0 := by
  have hpast' := hpast.step hstep
  rcases call_step hreach hstep hcalls (List.mem_singleton_self c.t) with
    ⟨rest, m', frames, hthread, hmove, rfl⟩ | ⟨hzero, hcalls⟩
  · cases hmove with
    | invokeMoveNext =>
        rw [advancesOn_iff.mpr ⟨rfl, u, rest, hthread⟩]
        exact .advances k hpast' (calls_of_frames hthread ⟨_, List.mem_cons_self, rfl⟩)
    | run _ huser | continueWith _ _ _ huser | continueWithFunc _ _ _ huser | iterate _ huser
    | new _ huser | setResult _ _ huser => cases huser
  · rw [hzero]
    exact .invoked k u hpast' hcalls

/-- The body of the enumerator runs, and is not left. -/
theorem Stage.advances_step (hreach : AwaitAsync.system.Reachable s)
    (hapart : Apart c s (th, act)) (hstep : AwaitAsync.step s (th, act) = some s')
    (hpast : Past c s k) (hcalls : Calls s.threads (· = .enumerator c.t)) :
    Stage c s' k (k + 1 + (advancesOn c s (th, act)).toNat) 0 := by
  have hpast' := hpast.step hstep
  rcases call_step hreach hstep hcalls (List.mem_singleton_self c.t) with
    ⟨rest, m', frames, hthread, hmove, rfl⟩ | ⟨hzero, hcalls⟩
  · have hzero : advancesOn c s (th, act) = false := by
      rw [← Bool.not_eq_true]
      intro hadvances
      rcases advancesOn_iff.mp hadvances with ⟨-, u, rest', hinvoke⟩
      cases hthread.symm.trans hinvoke
    rw [hzero]
    have hbody := mem_of_stays hmove (hapart.stays (inBody_iff.mpr ⟨rest, hthread⟩))
    exact .advances k hpast' (calls_of_frames hthread ⟨_, hbody, rfl⟩)
  · rw [hzero]
    exact .advances k hpast' hcalls

/-- The call of `SetResult` completes the new task. -/
theorem Stage.complete_step (hreach : AwaitAsync.system.Reachable s)
    (hstep : AwaitAsync.step s (th, act) = some s') (hpast : Past c s c.tasks.length)
    (hcalls : Calls s.threads (· = .setResult c.t)) :
    Stage c s' c.tasks.length (c.tasks.length + 1 + (advancesOn c s (th, act)).toNat) 1 := by
  have hpast' := hpast.step hstep
  rcases call_step hreach hstep hcalls (List.mem_singleton_self c.t) with
    ⟨rest, m', frames, hthread, hmove, rfl⟩ | ⟨hzero, hcalls⟩
  · cases hmove with
    | complete _ _ _ hm => exact .done hpast' (Shared.completed_of_setResult hm)
    | run _ huser | continueWith _ _ _ huser | continueWithFunc _ _ _ huser | iterate _ huser
    | new _ huser | setResult _ _ huser => cases huser
  · rw [hzero]
    exact .ends hpast' hcalls

/-- A step of other code leaves the rest of a call where it is, or moves it to
    the next place. -/
theorem Stage.other {y a e : Nat} (hreach : AwaitAsync.system.Reachable s)
    (hapart : Apart c s (th, act)) (hstep : AwaitAsync.step s (th, act) = some s')
    (h : Stage c s y a e) : Stage c s' y (a + (advancesOn c s (th, act)).toNat) e := by
  cases h with
  | waits k x u task hk hpast htask hopen hstored =>
      exact waits_step hreach hapart hstep hk hpast htask hopen hstored
  | queued k u hpast hqueued => exact queued_step hreach hstep hpast hqueued
  | invoked k u hpast hcalls => exact invoked_step hreach hstep hpast hcalls
  | advances k hpast hcalls => exact advances_step hreach hapart hstep hpast hcalls
  | ends hpast hcalls => exact complete_step hreach hstep hpast hcalls
  | done hpast hdone =>
      -- A completed task has nothing left that could advance the enumerator.
      have hone := done_of_completed hdone
      rw [not_advancesOn_of_elsewhere hreach (by omega)]
      have hpast' := hpast.step hstep
      rcases step_cases hstep with ⟨frame, rest, m', frames, -, -, hmove, rfl⟩
      exact .done hpast' (hmove.completed hdone)

/-- When a thread is in the body of the enumerator, the rest of the call is
    there. -/
theorem Stage.of_body {y a e : Nat} (hreach : AwaitAsync.system.Reachable s) {rest : List Frame}
    (hthread : s.threads[th]? = some (.enumerator c.t :: rest)) (h : Stage c s y a e) :
    Past c s y ∧ a = y + 1 ∧ e = 0 := by
  have hbody : c.t ∈ (Frame.enumerator c.t).ongoing := List.mem_singleton_self c.t
  -- In any other place, the rest of the call would be counted twice.
  have helsewhere : ¬ 0 < s.shared.weigh (fun callback => callback.inner.count c.t) +
      s.shared.done c.t := by
    intro hpos
    exact not_calls_of_elsewhere hreach hpos
      ⟨_, List.mem_of_getElem? hthread, _, List.mem_cons_self, hbody⟩
  cases h with
  | waits k x u task hk hpast htask hopen hstored =>
      have hpos := weigh_pos_of_stored htask hopen hstored
      omega
  | queued k u hpast hqueued =>
      have hpos := weigh_pos_of_queued hqueued
      omega
  | invoked k u hpast hcalls =>
      cases calls_unique hreach hthread hbody hcalls (List.mem_singleton_self c.t)
  | advances k hpast hcalls => exact ⟨hpast, rfl, rfl⟩
  | ends hpast hcalls =>
      cases calls_unique hreach hthread hbody hcalls (List.mem_singleton_self c.t)
  | done hpast hdone =>
      have hone := done_of_completed hdone
      omega

/-- The enumerator yields a task: the rest of the call waits for it, or is
    queued because it is completed. -/
theorem Stage.yields {y a e next : Nat} (hreach : AwaitAsync.system.Reachable s)
    (hnext : c.tasks[y]? = some next) {rest : List Frame}
    (hthread : s.threads[th]? = some (.enumerator c.t :: rest))
    (hstep : AwaitAsync.step s (th, .yields next) = some s') (h : Stage c s y a e) :
    Stage c s' (y + 1) a e := by
  rcases h.of_body hreach hthread with ⟨hpast, rfl, rfl⟩
  have hpast' := hpast.step hstep
  rcases step_cases hstep with ⟨frame, rest', m', frames, hthread', -, hmove, rfl⟩
  rw [hthread, Option.some.injEq, List.cons.injEq] at hthread'
  rcases hthread' with ⟨rfl, rfl⟩
  cases hmove with
  | yields _ _ _ hm =>
      rcases Shared.continueWith_cases hm with ⟨task, htask, ⟨hcompleted, rfl⟩ | ⟨hopen, rfl⟩⟩
      -- The task was completed before it was yielded.
      · refine .queued (y + 1) _ (hpast'.succ hnext ?_)
          (List.mem_append_right _ List.mem_cons_self)
        refine (Shared.completed_create _ next).trans ?_
        unfold Shared.completed
        rw [htask]
        exact hcompleted
      · have hlength := (List.getElem?_eq_some_iff.mp (Shared.getElem?_create htask)).1
        exact .waits y next _ _ hnext hpast' (List.getElem?_set_self hlength) hopen rfl

/-- The enumerator ends: the new task is about to be completed. -/
theorem Stage.ends_step {y a e : Nat} (hreach : AwaitAsync.system.Reachable s)
    (hall : y = c.tasks.length) {rest : List Frame}
    (hthread : s.threads[th]? = some (.enumerator c.t :: rest))
    (hstep : AwaitAsync.step s (th, .ends) = some s') (h : Stage c s y a e) :
    Stage c s' y a (e + 1) := by
  rcases h.of_body hreach hthread with ⟨hpast, rfl, rfl⟩
  subst hall
  have hpast' := hpast.step hstep
  rcases step_cases hstep with ⟨frame, rest', m', frames, hthread', -, hmove, rfl⟩
  rw [hthread, Option.some.injEq, List.cons.injEq] at hthread'
  rcases hthread' with ⟨rfl, rfl⟩
  cases hmove with
  | ends => exact .ends hpast' (calls_of_frames hthread ⟨_, List.mem_cons_self, rfl⟩)

/-- What holds of a call at any time. -/
structure Sound (c : Call) (p : Progress) : Prop where
  reachable : AwaitAsync.system.Reachable p.machine
  bounded : p.yielded ≤ c.tasks.length
  stage : Stage c p.machine p.yielded p.advances p.ended

variable {p p' : Progress}

/-- What holds of a call goes on to hold. -/
theorem Sound.moves (h : Sound c p) (hmoves : Moves c p p') : Sound c p' := by
  cases hmoves with
  | other label s hapart hstep =>
      exact ⟨h.reachable.step _ _ _ hstep, h.bounded,
        h.stage.other h.reachable hapart hstep⟩
  | yields th next rest s hnext hthread hstep =>
      have hlength := (List.getElem?_eq_some_iff.mp hnext).1
      exact ⟨h.reachable.step _ _ _ hstep, hlength,
        h.stage.yields h.reachable hnext hthread hstep⟩
  | ends th rest s hall hthread hstep =>
      exact ⟨h.reachable.step _ _ _ hstep, h.bounded,
        h.stage.ends_step h.reachable hall hthread hstep⟩

/-- The enumerator has been called once, and has not come back. -/
theorem Sound.initial (h : Initial c p) : Sound c p := by
  rcases h.made with ⟨s, hreach, hstep, ht⟩
  refine ⟨hreach.step _ _ _ hstep, ?_, ?_⟩
  · rw [h.yielded]
    exact Nat.zero_le _
  · rw [h.yielded, h.advances, h.ended]
    refine .advances 0 (fun i x hi _ => absurd hi (Nat.not_lt_zero i)) ?_
    rcases step_cases hstep with ⟨frame, rest, m', frames, hthread, -, hmove, hp⟩
    rw [hp, ht]
    cases hmove with
    | iterate => exact calls_of_frames hthread ⟨_, List.mem_cons_self, rfl⟩

/-- In any run of a call. -/
theorem sound (h : (system c).Reachable p) : Sound c p :=
  h.invariant (Sound c) (fun _ => Sound.initial) (fun _ _ _ hs hstep => hs.moves (step_moves hstep))

/-- The enumerator has been advanced once more than it has yielded, if it is in
    its body or has ended, and the tasks before are completed. -/
theorem Stage.counts {y a e : Nat} (h : Stage c s y a e) :
    (∀ i x, i + 1 < a → c.tasks[i]? = some x → s.shared.completed x = true) ∧
      y ≤ a ∧ a ≤ y + 1 ∧ e ≤ 1 := by
  cases h with
  | waits k x u task hk hpast htask hopen hstored =>
      exact ⟨fun i x hi => hpast i x (by omega), by omega, by omega, by omega⟩
  | queued k u hpast hqueued =>
      exact ⟨fun i x hi => hpast i x (by omega), by omega, by omega, by omega⟩
  | invoked k u hpast hcalls =>
      exact ⟨fun i x hi => hpast i x (by omega), by omega, by omega, by omega⟩
  | advances k hpast hcalls =>
      exact ⟨fun i x hi => hpast i x (by omega), by omega, by omega, by omega⟩
  | ends hpast hcalls =>
      exact ⟨fun i x hi => hpast i x (by omega), by omega, by omega, by omega⟩
  | done hpast hdone =>
      exact ⟨fun i x hi => hpast i x (by omega), by omega, by omega, by omega⟩

/-- When the new task is completed, the enumerator has come to its end. -/
theorem Stage.of_completed {y a e : Nat} (hreach : AwaitAsync.system.Reachable s)
    (hdone : s.shared.completed c.t = true) (h : Stage c s y a e) :
    Past c s c.tasks.length ∧ y = c.tasks.length ∧ a = c.tasks.length + 1 ∧ e = 1 := by
  have hone := done_of_completed hdone
  have hle := ongoing_le_one hreach c.t
  unfold State.ongoing Shared.ongoing at hle
  -- The completion is all of the work there is, so nothing of it is left.
  have hidle : ∀ f : Frame, c.t ∈ f.ongoing → ¬ Calls s.threads (· = f) := by
    intro f hf hcalls
    refine not_calls_of_elsewhere hreach (t := c.t) (by omega) ?_
    rcases hcalls with ⟨stack, hstack, f', hf', rfl⟩
    exact ⟨stack, hstack, f', hf', hf⟩
  cases h with
  | waits k x u task hk hpast htask hopen hstored =>
      have hpos := weigh_pos_of_stored htask hopen hstored
      omega
  | queued k u hpast hqueued =>
      have hpos := weigh_pos_of_queued hqueued
      omega
  | invoked k u hpast hcalls => exact absurd hcalls (hidle _ (List.mem_singleton_self c.t))
  | advances k hpast hcalls => exact absurd hcalls (hidle _ (List.mem_singleton_self c.t))
  | ends hpast hcalls => exact absurd hcalls (hidle _ (List.mem_singleton_self c.t))
  | done hpast _ => exact ⟨hpast, rfl, rfl, rfl⟩

/-- When every listed task is completed and nothing is left to run, the new
    task is completed. -/
theorem Stage.completed_of_drained {y a e : Nat} (hdrained : Drained s)
    (hall : ∀ x ∈ c.tasks, s.shared.completed x = true) (h : Stage c s y a e) :
    s.shared.completed c.t = true := by
  have hidle : ∀ f : Frame, f ≠ .client → f ≠ .worker → ¬ Calls s.threads (· = f) :=
    fun _ => WaitAll.not_calls_of_drained hdrained
  cases h with
  | waits k x u task hk hpast htask hopen hstored =>
      -- The rest waits only for a task that is not completed.
      have hdone := hall x (List.mem_of_getElem? hk)
      unfold Shared.completed at hdone
      rw [htask, Option.any_some, hopen] at hdone
      cases hdone
  | queued k u hpast hqueued =>
      rw [hdrained.1] at hqueued
      cases hqueued
  | invoked k u hpast hcalls =>
      exact absurd hcalls (hidle _ (fun hf => by cases hf) (fun hf => by cases hf))
  | advances k hpast hcalls =>
      exact absurd hcalls (hidle _ (fun hf => by cases hf) (fun hf => by cases hf))
  | ends hpast hcalls =>
      exact absurd hcalls (hidle _ (fun hf => by cases hf) (fun hf => by cases hf))
  | done hpast hdone => exact hdone

/-- The enumerator is not advanced past a task before that is completed, and is
    advanced once for each task that it yields and once at the end. The task
    that `Iterate` returns is completed only after that, so after the last of
    the listed ones. Its `SetResult` is called once at most, and finds it not
    completed. When every listed task is completed and nothing is left to run,
    it is completed. -/
theorem iterate_spec (c : Call) {p : Progress} (h : (system c).Reachable p) :
    (∀ k x, k + 1 < p.advances → c.tasks[k]? = some x →
      p.machine.shared.completed x = true) ∧
    (p.yielded ≤ p.advances ∧ p.advances ≤ p.yielded + 1 ∧ p.yielded ≤ c.tasks.length) ∧
    (p.machine.shared.completed c.t = true →
      (∀ x ∈ c.tasks, p.machine.shared.completed x = true) ∧
        p.yielded = c.tasks.length ∧ p.advances = c.tasks.length + 1 ∧ p.ended = 1) ∧
    (p.ended ≤ 1 ∧ ∀ (th : Nat) (rest : List Frame),
      p.machine.threads[th]? = some (Frame.setResult c.t :: rest) →
        (p.machine.shared.setResult c.t).isSome = true) ∧
    (Drained p.machine → (∀ x ∈ c.tasks, p.machine.shared.completed x = true) →
      p.machine.shared.completed c.t = true) := by
  have hsound := sound h
  rcases hsound.stage.counts with ⟨hpast, hyielded, hadvances, hended⟩
  refine ⟨hpast, ⟨hyielded, hadvances, hsound.bounded⟩, ?_,
    ⟨hended, fun th rest => setResult_isSome hsound.reachable⟩, ?_⟩
  · intro hdone
    rcases hsound.stage.of_completed hsound.reachable hdone with ⟨hall, hcounts⟩
    refine ⟨?_, hcounts⟩
    intro x hx
    rcases List.getElem?_of_mem hx with ⟨i, hi⟩
    exact hall i x (List.getElem?_eq_some_iff.mp hi).1 hi
  · intro hdrained hall
    exact hsound.stage.completed_of_drained hdrained hall

/-- `Iterate` of a task that is completed and one that is not. -/
def oneOpenCall : Call where
  caller := 0
  tasks := [0, 1]
  t := 2

/-- The enumerator has been called. -/
def oneOpenStart : Progress where
  machine :=
    { shared := WaitAll.oneOpen.shared.create.begin 2
      threads := [[.enumerator 2, .client], [.worker], [.client]] }
  yielded := 0
  advances := 1
  ended := 0

theorem oneOpenStart_initial : Initial oneOpenCall oneOpenStart where
  made := by
    exact ⟨WaitAll.oneOpen, WaitAll.oneOpen_reachable, by decide, rfl⟩
  yielded := rfl
  advances := rfl
  ended := rfl

/-- A thread of the pool advances the enumerator after the completed task, and
    the thread that completes the other one does so after that. -/
def oneOpenRun : List Label :=
  [.yields 0, .other (1, .take), .other (1, .invoke), .yields 1, .other (1, .complete),
    .other (2, .setResult 1), .other (2, .complete), .other (2, .invoke), .ends 2,
    .other (2, .complete), .other (2, .complete), .other (2, .leave)]

/-- Two tasks, one of them completed before: the enumerator is advanced three
    times. -/
theorem iterate_oneOpen : ∃ p, (system oneOpenCall).Reachable p ∧
    p.machine.shared.completed 2 = true ∧ p.yielded = 2 ∧ p.advances = 3 ∧ p.ended = 1 := by
  rcases System.exists_exec (step oneOpenCall) oneOpenStart oneOpenRun
    (fun p => p.machine.shared.workerItems == [] &&
      p.machine.threads == WaitAll.oneOpen.threads && p.machine.shared.completed 0 &&
      p.machine.shared.completed 1) (by decide +kernel) with ⟨p, hexec, hend⟩
  simp only [Bool.and_eq_true, beq_iff_eq] at hend
  rcases hend with ⟨⟨⟨hitems, hthreads⟩, hfirst⟩, hsecond⟩
  have hreach := System.reachable_of_exec oneOpenRun oneOpenStart p
    (.init _ oneOpenStart_initial) hexec
  rcases iterate_spec oneOpenCall hreach with ⟨-, -, hdone, -, hdrained⟩
  have hcompleted := hdrained ⟨hitems, fun stack hstack => ?_⟩ (fun x hx => ?_)
  · exact ⟨p, hreach, hcompleted, (hdone hcompleted).2⟩
  · rw [hthreads] at hstack
    exact WaitAll.oneOpen_idle stack hstack
  · unfold oneOpenCall at hx
    simp only [List.mem_cons, List.not_mem_nil, or_false] at hx
    rcases hx with rfl | rfl
    · exact hfirst
    · exact hsecond

end Iterate

end AwaitAsync

end BlogSample
