import BlogSample.Theory.Tally
import BlogSample.Theory.Transition

/-!
# Threads over Shared Memory

Threads that share data and take turns. One step is one atomic access of one
thread: a read, a write, an interlocked operation. What a thread does in a step
is a function of the shared data and of where the thread is, and a thread that
is blocked or has ended has no step. Any thread may be next, so a claim about
all reachable states is a claim about every interleaving.

A step changes the shared data and the place of one thread. `step_eq_some` says
that once, and three ways of using it follow: what holds of every thread
(`forall_set`), what is counted over the threads (`tally_set`), and what a
function of the data carries from one system to another (`step_map`).

## Main definitions

* `State`: Shared data and the places of the threads.
* `Program`: What a thread does in one step.
* `step`: A step of one thread.
* `system`: The runs of a program.
* `Stuck`: No thread can move.

## Theorems

* `step_eq_some`: What a step does.
* `forall_set`: What every thread meets after a step.
* `step_map`, `reachable_map_iff`: Programs that do the same to other data.
* `run_length_le`: What every step uses up bounds a run.
-/

namespace BlogSample

namespace Threads

open Transition

universe u v w x

/-- Shared data, and where each thread is. -/
structure State (σ : Type u) (θ : Type v) where
  shared : σ
  threads : List θ
  deriving DecidableEq

/-- What the thread with a number does in one step, from the shared data and
    from where it is; `none` if it has to wait or has ended. -/
abbrev Program (σ : Type u) (θ : Type v) := Nat → σ → θ → Option (σ × θ)

variable {σ : Type u} {θ : Type v}

/-- A step of the thread with number `i`. -/
def step (P : Program σ θ) (s : State σ θ) (i : Nat) : Option (State σ θ) :=
  (s.threads[i]?).bind fun th =>
    (P i s.shared th).map fun r => ⟨r.1, s.threads.set i r.2⟩

/-- The runs of a program from given states. -/
def system (P : Program σ θ) (init : State σ θ → Prop) : System (State σ θ) Nat :=
  System.ofFn init (step P)

/-- No thread can move. -/
def Stuck (P : Program σ θ) (s : State σ θ) : Prop :=
  ∀ i, step P s i = none

/-! ### What a step does -/

theorem step_eq_some {P : Program σ θ} {s t : State σ θ} {i : Nat} :
    step P s i = some t ↔ ∃ th m th', s.threads[i]? = some th ∧
      P i s.shared th = some (m, th') ∧ t = ⟨m, s.threads.set i th'⟩ := by
  unfold step
  rw [Option.bind_eq_some_iff]
  constructor
  · rintro ⟨th, hth, h⟩
    rw [Option.map_eq_some_iff] at h
    rcases h with ⟨⟨m, th'⟩, hm, ht⟩
    exact ⟨th, m, th', hth, hm, ht.symm⟩
  · rintro ⟨th, m, th', hth, hm, rfl⟩
    exact ⟨th, hth, by rw [hm, Option.map_some]⟩

/-- A thread that has a step takes it. -/
theorem step_of {P : Program σ θ} {s : State σ θ} {i : Nat} {th th' : θ} {m : σ}
    (hth : s.threads[i]? = some th) (hm : P i s.shared th = some (m, th')) :
    step P s i = some ⟨m, s.threads.set i th'⟩ :=
  step_eq_some.mpr ⟨th, m, th', hth, hm, rfl⟩

/-- A state in which no thread can move: none has a step. -/
theorem stuck_iff {P : Program σ θ} {s : State σ θ} :
    Stuck P s ↔ ∀ (i : Nat) (th : θ), s.threads[i]? = some th → P i s.shared th = none := by
  constructor
  · intro h i th hth
    cases hm : P i s.shared th with
    | none => rfl
    | some r => exact absurd (step_of hth hm) (by rw [h i]; exact Option.some_ne_none _ ∘ Eq.symm)
  · intro h i
    cases hst : step P s i with
    | none => rfl
    | some t =>
        rcases step_eq_some.mp hst with ⟨th, m, th', hth, hm, _⟩
        rw [h i th hth] at hm
        cases hm

theorem threads_length {P : Program σ θ} {s t : State σ θ} {i : Nat}
    (h : step P s i = some t) : t.threads.length = s.threads.length := by
  rcases step_eq_some.mp h with ⟨th, m, th', _, _, rfl⟩
  exact List.length_set

/-- Every thread meets a condition after one of them has moved: that one meets
    it, and the others still do. -/
theorem forall_set {Q : Nat → θ → Prop} {l : List θ} {i : Nat} {th' : θ} (hi : Q i th')
    (hother : ∀ j b, j ≠ i → l[j]? = some b → Q j b) :
    ∀ j b, (l.set i th')[j]? = some b → Q j b := by
  intro j b hb
  by_cases hj : j = i
  · subst hj
    rw [List.getElem?_set] at hb
    rw [if_pos rfl] at hb
    by_cases hlt : j < l.length
    · rw [if_pos hlt, Option.some.injEq] at hb
      exact hb ▸ hi
    · rw [if_neg hlt] at hb
      cases hb
  · rw [List.getElem?_set_ne (Ne.symm hj)] at hb
    exact hother j b hj hb

/-- How many threads the system has does not change. -/
theorem reachable_length {P : Program σ θ} {init : State σ θ → Prop} {n : Nat}
    (hinit : ∀ s, init s → s.threads.length = n) {s : State σ θ}
    (h : (system P init).Reachable s) : s.threads.length = n :=
  h.invariant (fun s => s.threads.length = n) hinit
    (fun _ _ _ hs hstep => (threads_length hstep).trans hs)

/-! ### The same program on other data -/

section Map

variable {σ' : Type w} {θ' : Type x} (F : σ → σ') (G : θ → θ')

/-- The state in which the shared data and the places of the threads are read
    through functions. -/
def State.map (s : State σ θ) : State σ' θ' :=
  ⟨F s.shared, s.threads.map G⟩

variable {F G}

/-- A program that does to what the functions make of the data what another
    one does to the data. -/
theorem step_map {P : Program σ θ} {P' : Program σ' θ'}
    (hP : ∀ i m th, P' i (F m) (G th) = (P i m th).map (fun r => (F r.1, G r.2)))
    (s : State σ θ) (i : Nat) :
    step P' (s.map F G) i = (step P s i).map (State.map F G) := by
  unfold step State.map
  rw [List.getElem?_map]
  cases hth : s.threads[i]? with
  | none => rfl
  | some th =>
      rw [Option.map_some, Option.bind_some, Option.bind_some, hP]
      cases P i s.shared th with
      | none => rfl
      | some r => simp only [Option.map_some, List.map_set]

/-- Such a program reaches what the functions make of what the other one
    reaches, and nothing else. -/
theorem reachable_map_iff {P : Program σ θ} {P' : Program σ' θ'}
    (hP : ∀ i m th, P' i (F m) (G th) = (P i m th).map (fun r => (F r.1, G r.2)))
    (init : State σ θ → Prop) (t : State σ' θ') :
    (system P' (fun t => ∃ s, init s ∧ s.map F G = t)).Reachable t ↔
      ∃ s, (system P init).Reachable s ∧ s.map F G = t := by
  constructor
  · intro h
    induction h with
    | init t ht =>
        rcases ht with ⟨s, hs, hst⟩
        exact ⟨s, .init s hs, hst⟩
    | step t i u _ hstep ih =>
        rcases ih with ⟨s, hs, rfl⟩
        have hmap : step P' (s.map F G) i = some u := hstep
        rw [step_map hP, Option.map_eq_some_iff] at hmap
        rcases hmap with ⟨s', hs', rfl⟩
        exact ⟨s', .step s i s' hs hs', rfl⟩
  · rintro ⟨s, hs, rfl⟩
    induction hs with
    | init s hs => exact .init _ ⟨s, hs, rfl⟩
    | step s i s' _ hstep ih =>
        refine .step _ i _ ih ?_
        have hmap : step P s i = some s' := hstep
        exact (step_map hP s i).trans (by rw [hmap, Option.map_some])

end Map

/-! ### How long a run is -/

/-- What every step uses up bounds the length of a run. -/
theorem run_length_le {P : Program σ θ} {init : State σ θ → Prop} (left : State σ θ → Nat)
    (hstep : ∀ s i t, (system P init).Reachable s → step P s i = some t → left t < left s)
    {s₀ s : State σ θ} (hinit : init s₀) {steps : List (State σ θ × Nat)}
    (h : (system P init).Run s₀ steps s) : left s + steps.length ≤ left s₀ := by
  induction h with
  | nil => exact Nat.le_refl _
  | snoc steps s i t hrun hst ih =>
      have hlt := hstep s i t (hrun.reachable hinit) hst
      rw [List.length_append, List.length_singleton]
      omega

end Threads

end BlogSample
