import BlogSample.AwaitAsync.Continuations
import BlogSample.AwaitAsync.Waiting

/-!
# Exceptions of a Task

Work in progress stops coming in three ways: user code throws, since
`SetException` completes nothing; a registration writes over a callback that
the task waits for; or a `Func` or an enumerator hands over a task that is
not coming itself. In a run without these every task whose work has begun is
completed in the end, and `Wait` returns.

## Main definitions

* `Tree`: A step that builds a tree of tasks.
* `Careful`: A step in none of the three ways.
* `Propagates`: A task has the exception that was raised for it.
* `Strays`: Some work is not coming.

## Theorems

* `exception_none`: No task ever stores an exception.
* `coming`: In a run of such steps, all work that has begun is coming.
* `strays_of_not_careful`: Any other step leaves some work straying.
* `exceptions_propagate_iff`: So all work is done just in such runs.
* `exceptions_lost`: A task whose action throws is never completed.
-/

namespace BlogSample

namespace AwaitAsync

open Transition

namespace Shared

/-- The exception `e` was raised for the task `u`, by its own action or for the
    task that its `Func` returned. -/
inductive Raised (m : Shared) : Nat → Exception → Prop
  | own (u : Nat) (e : Exception) : (u, e) ∈ m.raised → Raised m u e
  | inner (u next : Nat) (e : Exception) :
      (u, next) ∈ m.returned → Raised m next e → Raised m u e

/-- The task `u` is completed with the exception that was raised for it, if
    any, and `Wait` throws that one or returns. -/
def Propagates (m : Shared) (u : Nat) : Prop :=
  ∃ task, m.tasks[u]? = some task ∧ task.completed = true ∧
    (∀ e, task.exception = some e ↔ m.Raised u e) ∧
    task.wait = match task.exception with
      | some e => .throwsAggregate e
      | none => .returns

end Shared

/-- A step that builds a tree of tasks: with `Run`, `ContinueWith` and
    `Iterate`, but not by hand, and no call hands over a task that waits for a
    task of the call itself. -/
structure Tree (s : State) (label : Nat × Act) : Prop where
  made : label.2 ≠ .new
  inner : ∀ next, label.2.inner = some next → ∀ frame rest,
    s.threads[label.1]? = some (frame :: rest) → ∀ u ∈ frame.tasks,
      ¬ Relation.ReflTransGen s.shared.Waits next u

/-- A step after which all work that has begun is still coming: it does not
    throw, its registration does not write over a callback that such work waits
    for, and what a call hands over is coming. -/
structure Careful (s : State) (label : Nat × Act) : Prop where
  returns : ∀ exception, label.2 ≠ .throws exception
  registers : ∀ y, label.2.registersOn = some y → ∀ x ∈ s.shared.begun, ∀ u,
    Relation.ReflTransGen s.shared.Waits x u → ¬ s.shared.Waits u y
  inner : ∀ next, label.2.inner = some next → Coming s next

variable {m m' : Shared} {frame : Frame} {act : Act} {frames : List Frame}

/-- Work begins in a call that has to complete its task, or with a task that is
    made by hand. -/
theorem Move.begun (h : Move m frame act m' frames) (hmade : act ≠ .new) {u : Nat}
    (hu : u ∈ m'.begun) : u ∈ m.begun ∨ ∃ f ∈ frames, u ∈ f.tasks := by
  rcases h.noted.begun with hbegun | ⟨t, hbegun, hnew | hf⟩
  · exact .inl (hbegun ▸ hu)
  · exact absurd hnew hmade
  · rw [hbegun] at hu
    rcases List.mem_cons.mp hu with rfl | hu
    · exact .inr hf
    · exact .inl hu

theorem Shared.exception_create (hclean : ∀ task ∈ m.tasks, task.exception = none) :
    ∀ task ∈ m.create.tasks, task.exception = none := by
  intro task htask
  rcases List.mem_append.mp htask with htask | htask
  · exact hclean task htask
  · rw [List.mem_singleton.mp htask]
    rfl

theorem Shared.exception_continueWith {y : Nat} {callback : Nat → Callback}
    (hm : m.continueWith y callback = some m')
    (hclean : ∀ task ∈ m.tasks, task.exception = none) :
    ∀ task ∈ m'.tasks, task.exception = none := by
  rcases continueWith_cases hm with ⟨old, hold, ⟨_, rfl⟩ | ⟨_, rfl⟩⟩
  · exact exception_create hclean
  · intro task htask
    rcases List.mem_or_eq_of_mem_set htask with htask | rfl
    · exact exception_create hclean task htask
    · exact hclean old (List.mem_of_getElem? hold)

/-- A move stores no exception. -/
theorem Move.exception (h : Move m frame act m' frames)
    (hclean : ∀ task ∈ m.tasks, task.exception = none) :
    ∀ task ∈ m'.tasks, task.exception = none := by
  cases h with
  | run | iterate | new => exact Shared.exception_create hclean
  | continueWith frame t m₁ huser hm =>
      have hregister := Shared.exception_continueWith hm hclean
      exact hregister
  | continueWithFunc frame t m' huser hm => exact Shared.exception_continueWith hm hclean
  | returnsTask t next m' hm => exact Shared.exception_continueWith hm hclean
  | yields t next m' hm => exact Shared.exception_continueWith hm hclean
  | complete t m' frames hm =>
      rcases Shared.setResult_cases hm with ⟨old, hold, -, rfl, -⟩
      intro task htask
      rcases List.mem_or_eq_of_mem_set htask with htask | rfl
      · exact hclean task htask
      · rfl
  | take | invokeUser | invokeForward | invokeForwardException | invokeMoveNext | invokeFunc
  | setResult | returns | ends | actionThrows | funcThrows | enumeratorThrows | leave =>
      exact hclean

/-- No task ever stores an exception. -/
theorem exception_none {s : State} (h : system.Reachable s) :
    ∀ task ∈ s.shared.tasks, task.exception = none := by
  refine h.invariant (fun s => ∀ task ∈ s.shared.tasks, task.exception = none) ?_ ?_
  · intro s hinit task htask
    rw [hinit.1] at htask
    cases htask
  · intro s label s' hs hstep
    rcases label with ⟨th, act⟩
    rcases step_cases hstep with ⟨frame, rest, m', frames, -, -, hmove, rfl⟩
    exact hmove.exception hs

/-- Only a call that throws raises an exception. -/
theorem Move.raised (h : Move m frame act m' frames) (hthrows : ∀ e, act ≠ .throws e) :
    m'.raised = m.raised := by
  rcases h.noted.raised with hraised | ⟨e, hact⟩
  · exact hraised
  · exact absurd hact (hthrows e)

/-- Where nothing was raised, nothing was raised for any task. -/
theorem Shared.not_raised (h : m.raised = []) (u : Nat) (e : Exception) : ¬ m.Raised u e := by
  intro hraised
  induction hraised with
  | own u e he =>
      rw [h] at he
      cases he
  | inner u next e _ _ ih => exact ih

/-- A careful step leaves the work that has begun coming. -/
theorem coming_step {s s' : State} {label : Nat × Act} (htree : Tree s label)
    (hcareful : Careful s label) (hclean : ∀ task ∈ s.shared.tasks, task.exception = none)
    (hstep : step s label = some s') (h : ∀ x ∈ s.shared.begun, Coming s x) :
    ∀ x ∈ s'.shared.begun, Coming s' x := by
  rcases label with ⟨th, act⟩
  rcases step_cases hstep with ⟨frame, rest, m', frames, hthread, -, hmove, rfl⟩
  have hcalled : ∀ x, (∃ f ∈ frames, x ∈ f.tasks) →
      Coming { shared := m', threads := s.threads.set th (frames ++ rest) } x :=
    fun x hx => .base x (.called (calls_of_frames hthread hx))
  -- What is under way stays so, but for the tasks of the call that moves.
  have hother : ∀ x, UnderWay s x ∧ ¬ x ∈ frame.tasks →
      Coming { shared := m', threads := s.threads.set th (frames ++ rest) } x := by
    intro x hx
    rcases hx with ⟨hcompleted | ⟨callback, hqueued, hu⟩ | hcall, hnot⟩
    · exact .base x (.completed (hmove.completed hcompleted))
    · rcases hmove.queued hqueued with hqueued | hinvoke
      · exact .base x (.queued callback hqueued hu)
      · exact hcalled x ⟨_, hinvoke, hu⟩
    · rcases calls_move hthread frames hcall with hframe | hcall
      · exact absurd hframe hnot
      · exact .base x (.called hcall)
  have hwaits : ∀ x y, s.shared.Waits x y → m'.Waits x y ∨
      Coming { shared := m', threads := s.threads.set th (frames ++ rest) } x ∨
        act.registersOn = some y := by
    intro x y hxy
    rcases hmove.waits hxy with hwaits | hframes | hregisters
    · exact .inl hwaits
    · exact .inr (.inl (hcalled x hframes))
    · exact .inr (.inr hregisters)
  -- What is handed over does not wait for the tasks of the call.
  have hinner : ∀ next, act.inner = some next →
      Coming { shared := m', threads := s.threads.set th (frames ++ rest) } next := by
    intro next hnext
    have hregisters : act.registersOn = some next := by
      cases act <;> first | exact hnext | cases hnext
    have hnot := htree.inner next hnext frame rest hthread
    have haway := (hcareful.inner next hnext).avoid (fun y => y ∈ frame.tasks)
      (fun y hy hmem => hnot y hmem hy)
    refine Grounded.target next hother (fun x y hxy => ?_) haway
    rcases hwaits x y hxy with hwaits | hcoming | hy
    · exact .inl hwaits
    · exact .inr (.inl hcoming)
    · rw [hregisters, Option.some.injEq] at hy
      exact .inr (.inr hy.symm)
  have hframe : ∀ x ∈ frame.tasks,
      Coming { shared := m', threads := s.threads.set th (frames ++ rest) } x := by
    intro x hx
    rcases hmove.tasks hcareful.returns hclean hx with
      hframes | hcompleted | ⟨item, hitem, hu⟩ | ⟨next, hnext, hwaits⟩
    · exact hcalled x hframes
    · exact .base x (.completed hcompleted)
    · exact .base x (.queued item hitem hu)
    · exact .step x next hwaits (hinner next hnext)
  intro x hx
  rcases hmove.begun htree.made hx with hold | hnew
  · refine Grounded.cut (fun u => ∃ y, act.registersOn = some y ∧ s.shared.Waits u y)
      (fun y hy => ?_) (fun y z hyz => ?_) (h x hold) ?_
    · by_cases hmem : y ∈ frame.tasks
      · exact hframe y hmem
      · exact hother y ⟨hy, hmem⟩
    · rcases hwaits y z hyz with hwaits | hcoming | hz
      · exact .inl hwaits
      · exact .inr (.inl hcoming)
      · exact .inr (.inr ⟨z, hz, hyz⟩)
    · intro u hu hgone
      rcases hgone with ⟨y, hy, hwaits⟩
      exact hcareful.registers y hy x hold u hu hwaits
  · exact hcalled x hnew

/-- In a run of careful steps that build a tree, all work that has begun is
    coming, and nothing was raised. -/
theorem coming {s : State}
    (h : (system.restrict (fun s label => Tree s label ∧ Careful s label)).Reachable s) :
    (∀ x ∈ s.shared.begun, Coming s x) ∧ s.shared.raised = [] := by
  have hboth : system.Reachable s ∧ (∀ x ∈ s.shared.begun, Coming s x) ∧
      s.shared.raised = [] := by
    refine h.invariant (fun s => system.Reachable s ∧ (∀ x ∈ s.shared.begun, Coming s x) ∧
      s.shared.raised = []) ?_ ?_
    · intro s hinit
      refine ⟨.init s hinit, ?_, ?_⟩
      · intro x hx
        rw [hinit.1] at hx
        cases hx
      · rw [hinit.1]
        rfl
    · intro s label s' hs hstep
      rcases hs with ⟨hreach, hcoming, hraised⟩
      rcases hstep with ⟨⟨htree, hcareful⟩, hstep⟩
      refine ⟨.step s label s' hreach hstep,
        coming_step htree hcareful (exception_none hreach) hstep hcoming, ?_⟩
      rcases label with ⟨th, act⟩
      rcases step_cases hstep with ⟨frame, rest, m', frames, -, -, hmove, rfl⟩
      exact (hmove.raised hcareful.returns).trans hraised
  exact hboth.2

/-- In such a run every task whose work has begun is completed in the end, with
    the exception that was raised for it, which is none. -/
theorem propagates_of_careful {s : State}
    (h : (system.restrict (fun s label => Tree s label ∧ Careful s label)).Reachable s)
    (hdrained : Drained s) : ∀ u ∈ s.shared.begun, s.shared.Propagates u := by
  intro u hu
  rcases coming h with ⟨hcoming, hraised⟩
  have hcompleted := completed_of_drained hdrained (hcoming u hu)
  unfold Shared.completed at hcompleted
  rw [Option.any_eq_true] at hcompleted
  rcases hcompleted with ⟨task, htask, hcompleted⟩
  have hnone := exception_none h.of_restrict task (List.mem_of_getElem? htask)
  refine ⟨task, htask, hcompleted, ?_, ?_⟩
  · intro e
    constructor
    · intro he
      rw [hnone] at he
      cases he
    · intro he
      exact absurd he (Shared.not_raised hraised u e)
  · unfold MyTask.wait
    rw [hcompleted, hnone]
    rfl

/-- In a tree no task is made by hand. -/
theorem Move.pledged (h : Move m frame act m' frames) (hmade : act ≠ .new)
    (hpledged : m.pledged = []) : m'.pledged = [] := by
  rcases h.noted.pledged with hsame | hnew | ⟨t, ht, -⟩
  · exact hsame.trans hpledged
  · exact absurd hnew hmade
  · rw [hpledged] at ht
    cases ht

theorem pledged_nil {s : State} (h : (system.restrict Tree).Reachable s) :
    s.shared.pledged = [] := by
  refine h.invariant (fun s => s.shared.pledged = []) ?_ ?_
  · intro s hinit
    rw [hinit.1]
    rfl
  · intro s label s' hs hstep
    rcases label with ⟨th, act⟩
    rcases step_cases hstep.2 with ⟨frame, rest, m', frames, -, -, hmove, rfl⟩
    exact hmove.pledged hstep.1.made hs

/-- Some work that has begun is not coming. -/
def Strays (s : State) : Prop :=
  ∃ x ∈ s.shared.begun, ¬ Coming s x

/-- What is not coming stays so. -/
theorem Strays.step {s s' : State} {label : Nat × Act}
    (hreach : (system.restrict Tree).Reachable s) (hstep : AwaitAsync.step s label = some s')
    (h : Strays s) : Strays s' := by
  rcases h with ⟨x, hx, hnot⟩
  have hold : x < s.shared.tasks.length := by
    have hfresh := (accounted hreach.of_restrict).fresh x
    have hpos : 0 < s.shared.begins x := List.count_pos_iff.mpr hx
    omega
  refine ⟨x, ?_, fun hcoming => hnot (hcoming.before (pledged_nil hreach) hstep hold)⟩
  rcases label with ⟨th, act⟩
  rcases step_cases hstep with ⟨frame, rest, m', frames, -, -, hmove, rfl⟩
  exact hmove.begun_mono hx

/-- A step that throws leaves the work of the user code straying. -/
theorem strays_of_throws {s s' : State} {th : Nat} {exception : Exception}
    (hacc : Accounted s) (hstep : step s (th, .throws exception) = some s') : Strays s' := by
  have hlost : ∃ u ∈ s.shared.begun, Lost s' u := by
    rcases step_cases hstep with ⟨frame, rest, m', frames, hthread, -, hmove, -⟩
    have hongoing : ∃ u, u ∈ frame.ongoing := by
      cases hmove with
      | actionThrows t => exact ⟨t, List.mem_singleton_self t⟩
      | funcThrows t => exact ⟨t, List.mem_singleton_self t⟩
      | enumeratorThrows t => exact ⟨t, List.mem_singleton_self t⟩
    rcases hongoing with ⟨u, hu⟩
    exact ⟨u, begun_of_ongoing hacc hthread hu, lost_of_throws hacc hstep hthread hu⟩
  rcases hlost with ⟨u, hu, hlost⟩
  refine ⟨u, ?_, hlost.not_coming⟩
  rcases step_cases hstep with ⟨frame, rest, m', frames, -, -, hmove, rfl⟩
  exact hmove.begun_mono hu

/-- A registration that writes over a callback which work in progress waits for
    leaves that work straying. -/
theorem strays_of_registration {s s' : State} {th : Nat} {act : Act} {y : Nat}
    (hacc : Accounted s) (hstep : step s (th, act) = some s') (hact : act.registersOn = some y)
    {x u : Nat} (hx : x ∈ s.shared.begun) (hway : Relation.ReflTransGen s.shared.Waits x u)
    (hwaits : s.shared.Waits u y) : Strays s' := by
  have hacc' := hacc.step hstep
  have hgone : ∀ z, s.shared.Waits z y → Lost s' z := by
    intro z hz
    rcases hz with ⟨task, callback, htask, hstored, hu⟩
    exact lost_of_registration hacc hstep hact htask hstored hu
  have hkeep : ∀ z z', s.shared.Waits z z' → z' ≠ y → s'.shared.Waits z z' := by
    intro z z' hz hne
    rcases step_cases hstep with ⟨frame, rest, m', frames, -, -, hmove, rfl⟩
    exact hmove.waits_elsewhere hact hz hne
  refine ⟨x, ?_, ?_⟩
  · rcases step_cases hstep with ⟨frame, rest, m', frames, -, -, hmove, rfl⟩
    exact hmove.begun_mono hx
  · clear hx
    induction hway using Relation.ReflTransGen.head_induction_on with
    | refl => exact (hgone u hwaits).not_coming
    | head hz hrest ih =>
        rename_i z z'
        -- A task that waits has no other way to be completed.
        by_cases hzy : z' = y
        · subst hzy
          exact (hgone z hz).not_coming
        · intro hcoming
          exact ih (hcoming.only hacc' (hkeep z z' hz hzy))

/-- A call that hands over what is not coming leaves its own work straying. -/
theorem strays_of_inner {s s' : State} {th : Nat} {act : Act} {next : Nat}
    (hacc : Accounted s) (hpledged : s.shared.pledged = []) (hstep : step s (th, act) = some s')
    (hact : act.inner = some next) (hnot : ¬ Coming s next) : Strays s' := by
  have hacc' := hacc.step hstep
  have hopen : ¬ s.shared.completed next = true :=
    fun hcompleted => hnot (.base next (.completed hcompleted))
  have hwaits : next < s.shared.tasks.length ∧ ∃ u ∈ s'.shared.begun, s'.shared.Waits u next := by
    rcases step_cases hstep with ⟨frame, rest, m', frames, hthread, -, hmove, rfl⟩
    rcases hmove.waits_inner hact hopen with ⟨hnext, u, hu, hwaits⟩
    exact ⟨hnext, u, hmove.begun_mono (begun_of_ongoing hacc hthread hu), hwaits⟩
  rcases hwaits with ⟨hnext, u, hu, hwaits⟩
  refine ⟨u, hu, fun hcoming => hnot ?_⟩
  exact (hcoming.only hacc' hwaits).before hpledged hstep hnext

/-- A step that is not careful leaves some work straying. -/
theorem strays_of_not_careful {s s' : State} {label : Nat × Act}
    (hreach : (system.restrict Tree).Reachable s) (hstep : step s label = some s')
    (hnot : ¬ Careful s label) : Strays s' := by
  rcases label with ⟨th, act⟩
  have hacc := accounted hreach.of_restrict
  by_contra hno
  refine hnot ⟨?_, ?_, ?_⟩
  · intro exception hact
    cases hact
    exact hno (strays_of_throws hacc hstep)
  · intro y hact x hx u hway hwaits
    exact hno (strays_of_registration hacc hstep hact hx hway hwaits)
  · intro next hact
    by_contra hcoming
    exact hno (strays_of_inner hacc (pledged_nil hreach) hstep hact hcoming)

/-- At the end of a run that builds a tree of tasks, and in which the items of
    the pool have been run, every task whose work has begun is completed with
    the exception that was raised for it, or none, and `Wait` does not block,
    if and only if every step was careful. -/
theorem exceptions_propagate_iff {s₀ s : State} {steps : List (State × Nat × Act)}
    (hinit : Initial s₀) (hrun : system.Run s₀ steps s) (htree : ∀ p ∈ steps, Tree p.1 p.2)
    (hdrained : Drained s) :
    (∀ u ∈ s.shared.begun, s.shared.Propagates u) ↔ ∀ p ∈ steps, Careful p.1 p.2 := by
  constructor
  · intro hall
    by_contra hnot
    rcases System.Run.breaks (S := system.restrict Tree) Strays
      (fun s label s' hreach hstep => strays_of_not_careful hreach hstep.2)
      (fun s label s' hreach hstep => Strays.step hreach hstep.2) hinit (hrun.restrict htree) hnot
      with ⟨x, hx, hstray⟩
    rcases hall x hx with ⟨task, htask, hcompleted, -⟩
    refine hstray (.base x (.completed ?_))
    unfold Shared.completed
    rw [htask]
    exact hcompleted
  · intro hcareful
    exact propagates_of_careful ((hrun.restrict
      (fun p hp => ⟨htree p hp, hcareful p hp⟩)).reachable hinit) hdrained

/-- A step that is plain, makes no task by hand, and hands over a queued task
    only, while nothing is stored on any task. -/
def plainTree (s : State) (label : Nat × Act) : Bool :=
  plain s label && label.2 != .new &&
  label.2.inner.all (fun next =>
    s.shared.tasks.all (fun task => task.stored.isEmpty) &&
    s.shared.workerItems.any (fun item => item.task == next) &&
    s.threads[label.1]?.all (fun stack => stack.head?.all (fun frame =>
      !frame.tasks.contains next)))

/-- Where nothing is stored on a task, nothing waits for it. -/
theorem not_waits_of_stored {s : State} {y : Nat}
    (h : ∀ task, s.shared.tasks[y]? = some task → task.stored = []) (u : Nat) :
    ¬ s.shared.Waits u y := by
  intro hwaits
  rcases hwaits with ⟨task, callback, htask, hstored, _⟩
  rw [h task htask] at hstored
  cases hstored

/-- Such a step builds a tree, and is careful. -/
theorem careful_of_plainTree (s : State) (label : Nat × Act) (h : plainTree s label = true) :
    Tree s label ∧ Careful s label := by
  unfold plainTree at h
  rw [Bool.and_eq_true, Bool.and_eq_true] at h
  rcases h with ⟨⟨hplain, hnew⟩, hinner⟩
  unfold plain at hplain
  rw [Bool.and_eq_true] at hplain
  rcases hplain with ⟨hregisters, hthrows⟩
  refine ⟨⟨?_, ?_⟩, ?_, ?_, ?_⟩
  · intro hlabel
    rw [hlabel] at hnew
    cases hnew
  · intro next hnext frame rest hthread u hu hway
    rw [hnext, Option.all_some, Bool.and_eq_true, Bool.and_eq_true] at hinner
    rcases hinner with ⟨⟨hstored, -⟩, hframe⟩
    -- Nothing is stored, so `next` waits for nothing.
    rcases Relation.ReflTransGen.cases_head hway with rfl | ⟨y, hwaits, _⟩
    · rw [hthread, Option.all_some, List.head?_cons, Option.all_some,
        List.contains_iff_mem.mpr hu] at hframe
      cases hframe
    · refine not_waits_of_stored (fun task htask => ?_) next hwaits
      exact List.isEmpty_iff.mp (List.all_eq_true.mp hstored task (List.mem_of_getElem? htask))
  · intro exception hlabel
    rw [hlabel] at hthrows
    cases hthrows
  · intro y hy x _ u _
    rw [hy, Option.all_some] at hregisters
    refine not_waits_of_stored (fun task htask => ?_) u
    rw [htask, Option.all_some, Bool.or_eq_true] at hregisters
    unfold MyTask.stored
    rcases hregisters with hcompleted | hnone
    · rw [if_pos hcompleted]
    · rw [Option.isNone_iff_eq_none.mp hnone]
      exact ite_self []
  · intro next hnext
    rw [hnext, Option.all_some, Bool.and_eq_true, Bool.and_eq_true] at hinner
    rcases hinner with ⟨⟨-, hqueued⟩, -⟩
    rcases List.any_eq_true.mp hqueued with ⟨item, hitem, htask⟩
    refine .base next (.queued item hitem ?_)
    rw [← beq_iff_eq.mp htask]
    exact List.mem_cons_self

/-- A task, a `Func` registered on it, and the task that this returns. -/
def flattened : List (Nat × Act) :=
  [(0, .run), (0, .continueWithFunc 0), (1, .take), (1, .invoke), (1, .returns), (1, .complete),
    (1, .invoke), (1, .run), (1, .returnsTask 2), (1, .leave), (1, .take), (1, .invoke),
    (1, .returns), (1, .complete), (1, .invoke), (1, .complete), (1, .complete), (1, .leave)]

/-- The task of a `Func` is completed after the task that it returned. -/
theorem exceptions_propagate_flattened : ∃ s₀ steps s, Initial s₀ ∧ system.Run s₀ steps s ∧
    s.shared.begun = [3, 2, 1, 0] ∧ ∀ u ∈ s.shared.begun, s.shared.Propagates u := by
  rcases System.exists_exec (System.guarded plainTree step) twoThreads flattened
    (fun s => s.shared.workerItems == [] && s.threads == [[.client], [.worker]] &&
      s.shared.begun == [3, 2, 1, 0]) (by decide +kernel) with ⟨s, hexec, hend⟩
  simp only [Bool.and_eq_true, beq_iff_eq] at hend
  rcases hend with ⟨⟨hitems, hthreads⟩, hbegun⟩
  rcases System.Run.of_guarded _ .nil (fun p hp => absurd hp List.not_mem_nil) hexec with
    ⟨steps, hrun, hplain⟩
  have hcareful : ∀ p ∈ steps, Tree p.1 p.2 ∧ Careful p.1 p.2 :=
    fun p hp => careful_of_plainTree p.1 p.2 (hplain p hp)
  exact ⟨twoThreads, steps, s, twoThreads_initial, hrun, hbegun,
    (exceptions_propagate_iff twoThreads_initial hrun (fun p hp => (hcareful p hp).1)
      (twoThreads_drained hitems hthreads)).mpr (fun p hp => (hcareful p hp).2)⟩

/-- A task whose action throws. -/
def throwing : List (Nat × Act) :=
  [(0, .run), (1, .take), (1, .invoke), (1, .throws { message := "no" })]

/-- The action of the task throws: the task is never completed, and `Wait`
    blocks. -/
theorem exceptions_lost : ¬ ∀ s, (system.restrict Tree).Reachable s → Drained s →
    ∀ u ∈ s.shared.begun, s.shared.Propagates u := by
  intro hall
  rcases System.exists_exec step twoThreads throwing
    (fun s => s.shared.workerItems == [] && s.threads == [[.client], [.worker]] &&
      s.shared.begun == [0] && s.shared.tasks == [MyTask.new]) (by decide +kernel) with
    ⟨s, hexec, hend⟩
  simp only [Bool.and_eq_true, beq_iff_eq] at hend
  rcases hend with ⟨⟨⟨hitems, hthreads⟩, hbegun⟩, htasks⟩
  have htree : ∀ label ∈ throwing, ∀ s, Tree s label := by
    intro label hlabel s
    have hmade : ∀ label ∈ throwing, label.2 ≠ .new ∧ label.2.inner = none := by
      decide +kernel
    refine ⟨(hmade label hlabel).1, fun next hnext => ?_⟩
    rw [(hmade label hlabel).2] at hnext
    cases hnext
  have hreach : (system.restrict Tree).Reachable s :=
    System.restrict_reachable_of_exec throwing _ s (.init _ twoThreads_initial) htree hexec
  rcases hall s hreach (twoThreads_drained hitems hthreads) 0
    (by rw [hbegun]; exact List.mem_cons_self) with ⟨task, htask, hcompleted, -⟩
  rw [htasks] at htask
  cases htask
  cases hcompleted

end AwaitAsync

end BlogSample
