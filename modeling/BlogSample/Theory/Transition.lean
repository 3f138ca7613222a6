import Mathlib.Data.List.Basic

/-!
# Labelled Transition Systems

Runs of a system that moves by labelled steps, and the one induction every
safety proof of this development rests on. A system is a predicate on the
states it may start in and a step relation; a state is reachable when some
finite run leads to it.

Several results hold only of the runs whose steps all meet a condition.
`restrict` builds the system that has exactly those steps, so a claim about
such runs is a claim about the reachable states of the restricted system,
and no second notion of run is needed.

Programs are given as partial functions rather than relations: `ofFn` turns
such a function into a system, and `exec` runs it along a list of labels.
`exists_exec` is what lets a concrete trace be replayed by evaluation.

## Main definitions

* `System`: Start states and labelled steps.
* `Reachable`: The states at the end of a run.
* `restrict`: The system whose steps all meet a condition.
* `ofFn`: The system of a partial step function.
* `exec`: A partial step function along a list of labels.
* `guarded`: A partial step function whose steps pass a test.
* `trace`: The steps of an executed trace.
* `Run`: A run with its steps.

## Theorems

* `Reachable.invariant`: What holds initially and is preserved holds on
  every run.
* `Reachable.of_restrict`: A restricted run is a run.
* `Reachable.refines`: A step simulation carries over to runs.
* `exists_exec`: Replaying a trace by evaluation.
* `reachable_of_exec`, `restrict_reachable_of_exec`,
  `restrict_reachable_of_guarded`: The end of an executed trace is reachable.
* `Run.restrict`: A run whose steps all meet a condition.
* `Run.breaks`: What follows from a step that does not.
* `Run.split`, `Run.exec_trace`, `Run.exec`: A run up to a step, and beyond
  its end.
* `Run.of_guarded`: Replaying a run.
* `Run.trans`: One run after another.
* `finishes`: Where a step always brings the end nearer, every run
  can be continued to an end.
-/

namespace BlogSample

namespace Transition

universe u v

/-- A labelled transition system: where it may start, and how it may move. -/
structure System (σ : Type u) (α : Type v) where
  init : σ → Prop
  step : σ → α → σ → Prop

namespace System

variable {σ : Type u} {α : Type v}

/-- The states at the end of some finite run. -/
inductive Reachable (S : System σ α) : σ → Prop
  | init (s : σ) : S.init s → Reachable S s
  | step (s : σ) (a : α) (t : σ) : Reachable S s → S.step s a t → Reachable S t

/-- The system that may only take the steps meeting `ok`, a condition on the
    state before the step and on its label. -/
def restrict (S : System σ α) (ok : σ → α → Prop) : System σ α where
  init := S.init
  step := fun s a t => ok s a ∧ S.step s a t

/-- The system of a partial step function, `none` being a step that is not
    possible. -/
def ofFn (init : σ → Prop) (f : σ → α → Option σ) : System σ α where
  init := init
  step := fun s a t => f s a = some t

/-- An invariant holds on every run: it holds where the run starts, and
    every step preserves it. -/
theorem Reachable.invariant {S : System σ α} (I : σ → Prop)
    (hinit : ∀ s, S.init s → I s)
    (hstep : ∀ s a t, I s → S.step s a t → I t)
    {s : σ} (h : S.Reachable s) : I s := by
  induction h with
  | init s hs => exact hinit s hs
  | step s a t _ hst ih => exact hstep s a t ih hst

/-- A run of a restricted system is a run of the system. -/
theorem Reachable.of_restrict {S : System σ α} {ok : σ → α → Prop} {s : σ}
    (h : (S.restrict ok).Reachable s) : S.Reachable s := by
  induction h with
  | init s hs => exact Reachable.init s hs
  | step s a t _ hst ih => exact Reachable.step s a t ih hst.2

/-- A system that keeps step with another one: whatever it reaches stands for
    something the other one reaches. -/
theorem Reachable.refines {τ : Type u} {S : System σ α} {T : System τ α} (R : σ → τ → Prop)
    (hinit : ∀ s, S.init s → ∃ t, T.init t ∧ R s t)
    (hstep : ∀ s t a s', R s t → S.step s a s' → ∃ t', T.step t a t' ∧ R s' t')
    {s : σ} (h : S.Reachable s) : ∃ t, T.Reachable t ∧ R s t := by
  induction h with
  | init s hs =>
      rcases hinit s hs with ⟨t, ht, hR⟩
      exact ⟨t, .init t ht, hR⟩
  | step s a s' _ hst ih =>
      rcases ih with ⟨t, ht, hR⟩
      rcases hstep s t a s' hR hst with ⟨t', ht', hR'⟩
      exact ⟨t', .step t a t' ht ht', hR'⟩

/-- Follow a list of labels, stopping where a step is not possible. -/
def exec (f : σ → α → Option σ) : σ → List α → Option σ
  | s, [] => some s
  | s, a :: as => (f s a).bind (fun t => exec f t as)

/-- The state at the end of an executed trace is reachable. -/
theorem reachable_of_exec {init : σ → Prop} {f : σ → α → Option σ} :
    ∀ (as : List α) (s t : σ), (ofFn init f).Reachable s → exec f s as = some t →
      (ofFn init f).Reachable t := by
  intro as
  induction as with
  | nil =>
      intro s t hs h
      simp only [exec, Option.some.injEq] at h
      exact h ▸ hs
  | cons a as ih =>
      intro s t hs h
      simp only [exec, Option.bind_eq_some_iff] at h
      rcases h with ⟨m, hm, ht⟩
      exact ih m t (Reachable.step s a m hs hm) ht

/-- A trace that can be executed and ends where a test succeeds. -/
theorem exists_exec (f : σ → α → Option σ) (s : σ) (as : List α) (p : σ → Bool)
    (h : (exec f s as).any p = true) : ∃ t, exec f s as = some t ∧ p t = true := by
  cases ht : exec f s as with
  | none =>
      rw [ht] at h
      cases h
  | some t =>
      rw [ht] at h
      exact ⟨t, rfl, h⟩

/-- The end of an executed trace is reachable by steps that meet a condition,
    if every label of the trace always does. -/
theorem restrict_reachable_of_exec {init : σ → Prop} {f : σ → α → Option σ}
    {ok : σ → α → Prop} (as : List α) :
    ∀ s t : σ, ((ofFn init f).restrict ok).Reachable s → (∀ a ∈ as, ∀ s, ok s a) →
      exec f s as = some t → ((ofFn init f).restrict ok).Reachable t := by
  induction as with
  | nil =>
      intro s t hs _ h
      simp only [exec, Option.some.injEq] at h
      exact h ▸ hs
  | cons a as ih =>
      intro s t hs hok h
      simp only [exec, Option.bind_eq_some_iff] at h
      rcases h with ⟨m, hm, ht⟩
      exact ih m t (.step s a m hs ⟨hok a List.mem_cons_self s, hm⟩)
        (fun b hb => hok b (List.mem_cons_of_mem a hb)) ht

/-- A partial step function that makes the steps that pass a test. -/
def guarded (test : σ → α → Bool) (f : σ → α → Option σ) (s : σ) (a : α) : Option σ :=
  if test s a = true then f s a else none

/-- A trace whose steps pass a test is a trace. -/
theorem exec_of_guarded {f : σ → α → Option σ} {test : σ → α → Bool} {as : List α} :
    ∀ {s t : σ}, exec (guarded test f) s as = some t → exec f s as = some t := by
  induction as with
  | nil => exact fun h => h
  | cons a as ih =>
      intro s t h
      simp only [exec, Option.bind_eq_some_iff] at h ⊢
      rcases h with ⟨m, hm, ht⟩
      unfold guarded at hm
      by_cases hpass : test s a = true
      · rw [if_pos hpass] at hm
        exact ⟨m, hm, ih ht⟩
      · rw [if_neg hpass] at hm
        cases hm

/-- The end of an executed trace whose steps pass a test is reachable by steps
    that meet the condition, where passing the test is enough for that. -/
theorem restrict_reachable_of_guarded {init : σ → Prop} {f : σ → α → Option σ}
    {ok : σ → α → Prop} {test : σ → α → Bool} (htest : ∀ s a, test s a = true → ok s a)
    (as : List α) :
    ∀ s t : σ, ((ofFn init f).restrict ok).Reachable s → exec (guarded test f) s as = some t →
      ((ofFn init f).restrict ok).Reachable t := by
  induction as with
  | nil =>
      intro s t hs h
      simp only [exec, Option.some.injEq] at h
      exact h ▸ hs
  | cons a as ih =>
      intro s t hs h
      simp only [exec, Option.bind_eq_some_iff] at h
      rcases h with ⟨m, hm, ht⟩
      unfold guarded at hm
      by_cases hpass : test s a = true
      · rw [if_pos hpass] at hm
        exact ih m t (.step s a m hs ⟨htest s a hpass, hm⟩) ht
      · rw [if_neg hpass] at hm
        cases hm

/-- The steps of an executed trace, each with the state before it. -/
def trace (f : σ → α → Option σ) : σ → List α → List (σ × α)
  | _, [] => []
  | s, a :: as => (s, a) :: (f s a).elim [] (fun t => trace f t as)

/-- A run from `s₀`, with the states it went through and the labels of its
    steps. -/
inductive Run (S : System σ α) (s₀ : σ) : List (σ × α) → σ → Prop
  | nil : Run S s₀ [] s₀
  | snoc (steps : List (σ × α)) (s : σ) (a : α) (t : σ) :
      Run S s₀ steps s → S.step s a t → Run S s₀ (steps ++ [(s, a)]) t

namespace Run

variable {S : System σ α} {s₀ s : σ} {steps : List (σ × α)}

/-- The state at the end of a run is reachable. -/
theorem reachable (h : S.Run s₀ steps s) (hinit : S.init s₀) : S.Reachable s := by
  induction h with
  | nil => exact .init s₀ hinit
  | snoc steps s a t _ hstep ih => exact .step s a t ih hstep

/-- A step of a run is made from the state at the end of the steps before it. -/
theorem split {before after : List (σ × α)} {t : σ} {a : α}
    (h : S.Run s₀ (before ++ (s, a) :: after) t) :
    S.Run s₀ before s ∧ ∃ u, S.step s a u := by
  generalize hsteps : before ++ (s, a) :: after = steps at h
  induction h generalizing after with
  | nil => exact absurd hsteps (List.append_ne_nil_of_right_ne_nil _ (List.cons_ne_nil _ _))
  | snoc steps s' a' u hrun hstep ih =>
      rcases List.eq_nil_or_concat after with rfl | ⟨after, p, rfl⟩
      · rcases List.append_inj' hsteps rfl with ⟨rfl, hlast⟩
        cases hlast
        exact ⟨hrun, u, hstep⟩
      · rw [List.concat_eq_append, ← List.cons_append, ← List.append_assoc] at hsteps
        exact ih (List.append_inj' hsteps rfl).1

/-- A run whose steps all meet a condition is one of the restricted system. -/
theorem restrict {ok : σ → α → Prop} (h : S.Run s₀ steps s)
    (hok : ∀ p ∈ steps, ok p.1 p.2) : (S.restrict ok).Run s₀ steps s := by
  induction h with
  | nil => exact .nil
  | snoc steps s a t _ hstep ih =>
      refine .snoc steps s a t (ih (fun p hp => hok p (List.mem_append_left _ hp))) ⟨?_, hstep⟩
      exact hok (s, a) (List.mem_append_right _ (List.mem_singleton_self _))

/-- What is bad after every step that breaks a condition, and stays bad, is bad
    at the end of a run with such a step. -/
theorem breaks {ok : σ → α → Prop} (bad : σ → Prop)
    (hbreak : ∀ s a t, S.Reachable s → S.step s a t → ¬ ok s a → bad t)
    (hkeep : ∀ s a t, S.Reachable s → S.step s a t → bad s → bad t)
    (hinit : S.init s₀) (h : S.Run s₀ steps s) (hnot : ¬ ∀ p ∈ steps, ok p.1 p.2) : bad s := by
  induction h with
  | nil => exact absurd (fun p hp => absurd hp List.not_mem_nil) hnot
  | snoc steps s a t hrun hstep ih =>
      have hreach := hrun.reachable hinit
      by_cases hok : ok s a
      -- The step that breaks the condition is an earlier one.
      · refine hkeep s a t hreach hstep (ih (fun hall => hnot (fun p hp => ?_)))
        rcases List.mem_append.mp hp with hp | hp
        · exact hall p hp
        · rw [List.mem_singleton.mp hp]
          exact hok
      · exact hbreak s a t hreach hstep hok

/-- A run is continued by the steps of an executed trace. -/
theorem exec_trace {init : σ → Prop} {f : σ → α → Option σ} (as : List α) :
    ∀ {steps : List (σ × α)} {s t : σ}, (ofFn init f).Run s₀ steps s →
      System.exec f s as = some t → (ofFn init f).Run s₀ (steps ++ trace f s as) t := by
  induction as with
  | nil =>
      intro steps s t hrun h
      simp only [System.exec, Option.some.injEq] at h
      rw [trace, List.append_nil]
      exact h ▸ hrun
  | cons a as ih =>
      intro steps s t hrun h
      simp only [System.exec, Option.bind_eq_some_iff] at h
      rcases h with ⟨m, hm, ht⟩
      have hmore := ih (.snoc steps s a m hrun hm) ht
      rw [trace, hm, ← List.singleton_append, ← List.append_assoc]
      exact hmore

/-- A run can be continued by executing a trace. -/
theorem exec {init : σ → Prop} {f : σ → α → Option σ} (as : List α)
    {steps : List (σ × α)} {s t : σ} (hrun : (ofFn init f).Run s₀ steps s)
    (h : System.exec f s as = some t) : ∃ more, (ofFn init f).Run s₀ (steps ++ more) t :=
  ⟨trace f s as, hrun.exec_trace as h⟩

/-- Executing a trace whose steps all pass a test is a run of such steps. -/
theorem of_guarded {init : σ → Prop} {f : σ → α → Option σ} {test : σ → α → Bool}
    (as : List α) : ∀ {steps : List (σ × α)} {s t : σ}, (ofFn init f).Run s₀ steps s →
      (∀ p ∈ steps, test p.1 p.2 = true) → System.exec (guarded test f) s as = some t →
      ∃ steps', (ofFn init f).Run s₀ steps' t ∧ ∀ p ∈ steps', test p.1 p.2 = true := by
  induction as with
  | nil =>
      intro steps s t hrun htest h
      simp only [System.exec, Option.some.injEq] at h
      exact ⟨steps, h ▸ hrun, htest⟩
  | cons a as ih =>
      intro steps s t hrun htest h
      simp only [System.exec, Option.bind_eq_some_iff] at h
      rcases h with ⟨m, hm, ht⟩
      unfold guarded at hm
      by_cases hpass : test s a = true
      · rw [if_pos hpass] at hm
        refine ih (.snoc steps s a m hrun hm) (fun p hp => ?_) ht
        rcases List.mem_append.mp hp with hp | hp
        · exact htest p hp
        · rw [List.mem_singleton.mp hp]
          exact hpass
      · rw [if_neg hpass] at hm
        cases hm

/-- One run after another. -/
theorem trans {more : List (σ × α)} {t : σ} (h : S.Run s₀ steps s) (h' : S.Run s more t) :
    S.Run s₀ (steps ++ more) t := by
  induction h' with
  | nil =>
      rw [List.append_nil]
      exact h
  | snoc more u a t _ hstep ih =>
      rw [← List.append_assoc]
      exact .snoc (steps ++ more) u a t ih hstep

/-- What a run goes on from is what it started from, with the steps in
    between. -/
theorem reachable_of_reachable (h : S.Run s₀ steps s) (h₀ : S.Reachable s₀) : S.Reachable s := by
  induction h with
  | nil => exact h₀
  | snoc steps s a t _ hstep ih => exact .step s a t ih hstep

end Run

/-- Where some step always brings the end nearer and keeps a condition, a run
    can be continued to an end from any state that meets it. -/
theorem finishes {S : System σ α} (I : σ → Prop) (left : σ → Nat) (done : σ → Prop)
    (hnear : ∀ s, I s → ¬ done s → ∃ a t, S.step s a t ∧ I t ∧ left t < left s)
    {s : σ} (h : I s) : ∃ steps t, S.Run s steps t ∧ done t := by
  induction hn : left s using Nat.strongRecOn generalizing s with
  | ind n ih =>
      by_cases hdone : done s
      · exact ⟨[], s, .nil, hdone⟩
      · rcases hnear s h hdone with ⟨a, t, hstep, ht, hlt⟩
        rcases ih (left t) (hn ▸ hlt) ht rfl with ⟨steps, u, hrun, hu⟩
        exact ⟨[(s, a)] ++ steps, u, .trans (.snoc [] s a t .nil hstep) hrun, hu⟩

end System

end Transition

end BlogSample
