import Mathlib.Data.Nat.Notation

/-!
# Calls with Fuel

A call that may throw and need not return. It has fuel for its recursion and
its loops, so what it does is one of three things: it returns, it throws, or it
runs out of fuel. `Returns` is the first of them, and is composed along the
`do` block of the caller.

A call terminates if it returns with any amount of fuel above some bound. For a
loop this needs an invariant and a measure that each round makes smaller.

## Main definitions

* `Call`, `outOfFuel`: Calls, and the one that has no fuel left.
* `Returns`: The call returns.
* `Terminates`: The call returns if it has enough fuel.
* `whileLoop`: Rounds as long as a condition holds.

## Theorems

* `Returns.bind`, `Returns.of_bind`, `Returns.lift`: A call that goes on after another one.
* `Returns.foldlM_cons`: A loop over a list.
* `forall_lt_of_succ`: A unit of fuel for a call and the rest for those in it.
* `Terminates.unique`: A call returns one thing only.
* `whileLoop_returns`: A loop with an invariant and a measure.
* `whileLoop_outOfFuel`: A loop that never comes to its end.
-/

namespace BlogSample

namespace Fuel

variable {ε α β σ : Type}

/-- A call that may throw or may run out of fuel. -/
abbrev Call (ε α : Type) := ExceptT ε Option α

/-- There is no fuel left. -/
def outOfFuel : Call ε α :=
  ExceptT.mk none

/-- The call returns. -/
def Returns (c : Call ε α) (a : α) : Prop :=
  c.run = some (.ok a)

/-- The call returns with any amount of fuel above some bound. -/
def Terminates (c : ℕ → Call ε α) (a : α) : Prop :=
  ∃ bound, ∀ fuel, bound < fuel → Returns (c fuel) a

/-- Rounds as long as a condition holds, one unit of fuel for each test of it. -/
def whileLoop (cond : σ → Bool) (body : σ → Call ε σ) : ℕ → σ → Call ε σ
  | 0, _ => outOfFuel
  | fuel + 1, s => if cond s then body s >>= whileLoop cond body fuel else pure s

theorem Returns.pure (a : α) : Returns (Pure.pure a : Call ε α) a :=
  rfl

theorem Returns.lift {x : Except ε α} {a : α} (h : x = .ok a) :
    Returns (liftM x : Call ε α) a := by
  rw [h]
  rfl

/-- A call that returns, and one after it that does. -/
theorem Returns.bind {x : Call ε α} {f : α → Call ε β} {a : α} {b : β} (h : Returns x a)
    (h' : Returns (f a) b) : Returns (x >>= f) b := by
  have hrun : (x >>= f).run = x.run.bind (fun r => ExceptT.bindCont f r) := rfl
  unfold Returns
  rw [hrun, h]
  exact h'

/-- A call that goes on after another one returns only if that one did. -/
theorem Returns.of_bind {x : Call ε α} {f : α → Call ε β} {b : β} (h : Returns (x >>= f) b) :
    ∃ a, Returns x a ∧ Returns (f a) b := by
  have hrun : (x >>= f).run = x.run.bind (fun r => ExceptT.bindCont f r) := rfl
  unfold Returns at h
  rw [hrun] at h
  rcases hx : x.run with _ | (e | a)
  · rw [hx] at h
    cases h
  · rw [hx] at h
    cases h
  · rw [hx] at h
    exact ⟨a, hx, h⟩

theorem Returns.unique {c : Call ε α} {a b : α} (h : Returns c a) (h' : Returns c b) : a = b := by
  unfold Returns at h h'
  rw [h, Option.some.injEq, Except.ok.injEq] at h'
  exact h'

theorem Returns.foldlM_cons {f : β → α → Call ε β} {s t u : β} {a : α} {l : List α}
    (h : Returns (f s a) t) (h' : Returns (l.foldlM f t) u) :
    Returns ((a :: l).foldlM f s) u := by
  rw [List.foldlM_cons]
  exact h.bind h'

/-- Enough fuel is a unit for this call and enough for those in it. -/
theorem forall_lt_of_succ {P : ℕ → Prop} {k : ℕ} (h : ∀ fuel, k ≤ fuel → P (fuel + 1)) :
    ∀ fuel, k < fuel → P fuel := by
  intro fuel hfuel
  cases fuel with
  | zero => exact absurd hfuel (Nat.not_lt_zero k)
  | succ fuel => exact h fuel (Nat.le_of_lt_succ hfuel)

/-- A call returns the same thing with any amount of fuel that is enough. -/
theorem Terminates.unique {c : ℕ → Call ε α} {a b : α} (h : Terminates c a)
    (h' : Terminates c b) : a = b := by
  rcases h with ⟨k, h⟩
  rcases h' with ⟨k', h'⟩
  exact (h (k + k' + 1) (by omega)).unique (h' (k + k' + 1) (by omega))

/-- A loop with an invariant and a measure ends, and the invariant holds at its end. -/
theorem whileLoop_returns {cond : σ → Bool} {body : σ → Call ε σ} (inv : σ → Prop)
    (measure : σ → ℕ)
    (hbody : ∀ s, inv s → cond s = true →
      ∃ t, Returns (body s) t ∧ inv t ∧ measure t < measure s) {s : σ} (hs : inv s) :
    ∃ t, inv t ∧ cond t = false ∧
      ∀ fuel, measure s < fuel → Returns (whileLoop cond body fuel s) t := by
  induction hn : measure s using Nat.strongRecOn generalizing s with
  | ind n ih =>
      cases hcond : cond s with
      | true =>
          rcases hbody s hs hcond with ⟨t, hret, ht, hlt⟩
          rcases ih (measure t) (hn ▸ hlt) ht rfl with ⟨u, hu, hend, hloop⟩
          -- One unit of fuel is for this round, and the measure bounds those after it.
          refine ⟨u, hu, hend, forall_lt_of_succ (fun fuel hfuel => ?_)⟩
          rw [whileLoop, if_pos hcond]
          exact hret.bind (hloop fuel (by omega))
      | false =>
          refine ⟨s, hs, hcond, forall_lt_of_succ (fun fuel _ => ?_)⟩
          rw [whileLoop, if_neg (by rw [hcond]; exact Bool.false_ne_true)]
          exact .pure s

/-- A call that goes on after one that has returned. -/
theorem Returns.run_bind {x : Call ε α} {f : α → Call ε β} {a : α} (h : Returns x a) :
    (x >>= f).run = (f a).run := by
  have hrun : (x >>= f).run = x.run.bind (fun r => ExceptT.bindCont f r) := rfl
  rw [hrun, h]
  rfl

/-- A call that goes on after one that has run out of fuel. -/
theorem run_bind_of_none {x : Call ε α} (f : α → Call ε β) (h : x.run = none) :
    (x >>= f).run = none := by
  have hrun : (x >>= f).run = x.run.bind (fun r => ExceptT.bindCont f r) := rfl
  rw [hrun, h]
  rfl

/-- A loop with an invariant under which its condition holds runs out of fuel, however much it
    has. -/
theorem whileLoop_outOfFuel {cond : σ → Bool} {body : σ → Call ε σ} (inv : σ → Prop)
    (hbody : ∀ s, inv s → cond s = true ∧ ∃ t, Returns (body s) t ∧ inv t) :
    ∀ (fuel : ℕ) (s : σ), inv s → (whileLoop cond body fuel s).run = none := by
  intro fuel
  induction fuel with
  | zero => exact fun _ _ => rfl
  | succ fuel ih =>
      intro s hs
      rcases hbody s hs with ⟨hcond, t, hret, ht⟩
      rw [whileLoop, if_pos hcond, hret.run_bind]
      exact ih t ht

end Fuel

end BlogSample
