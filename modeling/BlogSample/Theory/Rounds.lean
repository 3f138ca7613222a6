import Mathlib.Logic.Function.Iterate

/-!
# Working in Rounds

A loop that works off what is pending in rounds: it counts what is pending and
does that many pieces of work, which may leave new work for the next round. A
piece of work may throw, and nothing says that the loop ends, so it has fuel,
one unit for each round.

What is known about the work is given by a simulation: a function on another
type whose steps the pieces of work follow as long as something is pending. Work
that may throw has an invariant instead, and a number that each piece lowers.

## Main definitions

* `forLoop`: A number of pieces of work.
* `whileLoop`: Rounds, until nothing is pending.
* `Runs`: A number of pieces of work, each with something pending before it.
* `always`: A test of all states of a run that ends.

## Theorems

* `Runs.of_always`: What has been tested holds.
* `Runs.simulated`: A run follows the function.
* `forLoop_eq`, `whileLoop_eq`: The loops end where the function does.
* `forLoop_ends`, `whileLoop_ends`: Loops with an invariant and a measure, in
  which a piece of work may throw.
-/

namespace BlogSample

namespace Rounds

universe u v

section

variable {ε : Type u} {S : Type v}

/-- A number of pieces of work. -/
def forLoop (body : S → Except ε S) : Nat → S → Except ε S
  | 0, s => pure s
  | cnt + 1, s => body s >>= forLoop body cnt

/-- Rounds of as many pieces of work as there are pending, until there are none. -/
def whileLoop (count : S → Nat) (body : S → Except ε S) : Nat → S → Except ε (Option S)
  | 0, _ => pure none
  | fuel + 1, s =>
      if 0 < count s then forLoop body (count s) s >>= whileLoop count body fuel
      else pure (some s)

/-- A number of pieces of work, each with something pending before it. -/
inductive Runs (count : S → Nat) (body : S → Except ε S) (s : S) : Nat → S → Prop
  | refl : Runs count body s 0 s
  | step (k : Nat) (t u : S) :
      Runs count body s k t → 0 < count t → body t = .ok u → Runs count body s (k + 1) u

/-- A test holds in every state of a run, and nothing is pending in its last one. -/
def always (count : S → Nat) (body : S → Except ε S) (p : S → Bool) : Nat → S → Bool
  | 0, s => p s && count s == 0
  | fuel + 1, s =>
      p s && (count s == 0 ||
        match body s with
        | .ok t => always count body p fuel t
        | .error _ => true)

theorem always_self {count : S → Nat} {body : S → Except ε S} {p : S → Bool} {fuel : Nat} {s : S}
    (h : always count body p fuel s = true) : p s = true := by
  cases fuel with
  | zero => exact (Bool.and_eq_true_iff.mp h).1
  | succ fuel => exact (Bool.and_eq_true_iff.mp h).1

/-- What has been tested holds. -/
theorem Runs.of_always {count : S → Nat} {body : S → Except ε S} {p : S → Bool} (fuel : Nat)
    {s t : S} (h : always count body p fuel s = true) {k : Nat} (hruns : Runs count body s k t) :
    p t = true := by
  have hrest : ∃ fuel, always count body p fuel t = true := by
    induction hruns with
    | refl => exact ⟨fuel, h⟩
    | step k t u _ hpos hbody ih =>
        rcases ih with ⟨fuel, ht⟩
        have hne : (count t == 0) = false := beq_eq_false_iff_ne.mpr (Nat.ne_of_gt hpos)
        cases fuel with
        | zero =>
            rw [always, hne, Bool.and_false] at ht
            cases ht
        | succ fuel =>
            rw [always, hne, Bool.false_or, hbody] at ht
            exact ⟨fuel, (Bool.and_eq_true_iff.mp ht).2⟩
  exact always_self hrest.choose_spec

end

section Simulation

variable {ε : Type u} {S T : Type v} {count : S → Nat} {body : S → Except ε S} {pending : T → Nat}
  {next : T → T} {R : S → T → Prop} (hcount : ∀ s x, R s x → count s = pending x)
  (hstep : ∀ s x, R s x → 0 < pending x → ∃ t, body s = .ok t ∧ R t (next x))

include hcount hstep

/-- A run follows the function. -/
theorem Runs.simulated {s t : S} {x : T} {k : Nat} (h : Runs count body s k t) (hR : R s x) :
    R t (next^[k] x) := by
  induction h with
  | refl => exact hR
  | step k t u _ hpos hbody ih =>
      rw [hcount t _ ih] at hpos
      rcases hstep t _ ih hpos with ⟨u', hu', hRu⟩
      rw [hbody] at hu'
      cases hu'
      rw [Function.iterate_succ_apply']
      exact hRu

omit hcount hstep in
theorem Runs.trans {s t u : S} {j k : Nat} (h : Runs count body s j t)
    (h' : Runs count body t k u) : Runs count body s (j + k) u := by
  induction h' with
  | refl => exact h
  | step k u v _ hpos hbody ih => exact ih.step (j + k) u v hpos hbody

omit hcount hstep in
/-- The beginning of a run. -/
theorem Runs.upto {s t : S} {k : Nat} (h : Runs count body s k t) {j : Nat} (hj : j ≤ k) :
    ∃ u, Runs count body s j u := by
  induction h with
  | refl =>
      rw [Nat.le_zero.mp hj]
      exact ⟨s, .refl⟩
  | step k t u h hpos hbody ih =>
      rcases Nat.lt_or_eq_of_le hj with hlt | rfl
      · exact ih (Nat.le_of_lt_succ hlt)
      · exact ⟨u, h.step k t u hpos hbody⟩

/-- As many pieces of work as the function has steps with something pending. -/
theorem forLoop_eq {s : S} {x : T} (hR : R s x) {k : Nat}
    (hpos : ∀ j < k, 0 < pending (next^[j] x)) :
    ∃ t, Runs count body s k t ∧ forLoop body k s = .ok t ∧ R t (next^[k] x) := by
  induction k generalizing s x with
  | zero => exact ⟨s, .refl, rfl, hR⟩
  | succ k ih =>
      have hfirst : 0 < pending x := hpos 0 (Nat.succ_pos k)
      rcases hstep s x hR hfirst with ⟨t, hbody, hRt⟩
      rcases ih hRt (fun j hj => hpos (j + 1) (Nat.succ_lt_succ hj)) with
        ⟨u, hruns, hloop, hRu⟩
      rw [← hcount s x hR] at hfirst
      have hone : Runs count body s 1 t := Runs.refl.step 0 s t hfirst hbody
      refine ⟨u, ?_, ?_, hRu⟩
      · rw [Nat.add_comm]
        exact hone.trans hruns
      · change (body s >>= forLoop body k) = .ok u
        rw [hbody]
        exact hloop

/-- The rounds end when nothing is pending. A piece of work takes away at most one
    pending piece, so a round does not outlast the work. -/
theorem whileLoop_eq (hdrop : ∀ x, pending x ≤ pending (next x) + 1) {s : S} {x : T}
    (hR : R s x) {k : Nat} (hzero : pending (next^[k] x) = 0)
    (hpos : ∀ j < k, 0 < pending (next^[j] x)) :
    ∃ t, Runs count body s k t ∧ R t (next^[k] x) ∧
      ∀ fuel, k < fuel → whileLoop count body fuel s = .ok (some t) := by
  induction k using Nat.strongRecOn generalizing s x with
  | ind k ih =>
      -- A round lowers the count by at most one, so the inner loop cannot go past the
      -- end.
      have hdrops (j : Nat) : pending x ≤ pending (next^[j] x) + j := by
        induction j with
        | zero => exact Nat.le_refl _
        | succ j ihj =>
            rw [Function.iterate_succ_apply']
            have hlast := hdrop (next^[j] x)
            omega
      have hround : pending x ≤ k := by
        have hk := hdrops k
        omega
      by_cases hx : 0 < pending x
      · rcases forLoop_eq hcount hstep hR (fun j hj => hpos j (Nat.lt_of_lt_of_le hj hround)) with
          ⟨t, hruns, hloop, hRt⟩
        have hsplit (j : Nat) : next^[j] (next^[pending x] x) = next^[j + pending x] x :=
          (Function.iterate_add_apply next j (pending x) x).symm
        have hend : k - pending x + pending x = k := Nat.sub_add_cancel hround
        rcases ih (k - pending x) (by omega) hRt (by rw [hsplit, hend]; exact hzero)
          (fun j hj => by rw [hsplit]; exact hpos _ (by omega)) with ⟨u, hruns', hRu, hwhile⟩
        rw [hsplit, hend] at hRu
        refine ⟨u, ?_, hRu, fun fuel hfuel => ?_⟩
        · rw [← hend, Nat.add_comm]
          exact hruns.trans hruns'
        · obtain ⟨fuel, rfl⟩ : ∃ n, fuel = n + 1 := Nat.exists_eq_succ_of_ne_zero (by omega)
          -- One round of the outer loop are as many of the inner one as were counted.
          unfold whileLoop
          rw [hcount s x hR, if_pos hx, hloop]
          exact hwhile fuel (by omega)
      · obtain rfl : k = 0 := by
          by_contra hk
          exact hx (hpos 0 (Nat.pos_of_ne_zero hk))
        refine ⟨s, .refl, hR, fun fuel hfuel => ?_⟩
        obtain ⟨fuel, rfl⟩ : ∃ n, fuel = n + 1 := Nat.exists_eq_succ_of_ne_zero (by omega)
        unfold whileLoop
        rw [hcount s x hR, if_neg hx]
        rfl

end Simulation

section Invariant

variable {ε : Type u} {S : Type v} {count left : S → Nat} {body : S → Except ε S}
  {Inv : S → Prop} {Thrown : ε → Prop}
  (hbody : ∀ s, Inv s → 0 < count s →
    (∃ t, body s = .ok t ∧ Inv t ∧ count s ≤ count t + 1 ∧ left t < left s) ∨
      ∃ e, body s = .error e ∧ Thrown e)

include hbody

/-- A round of no more pieces than are pending. -/
theorem forLoop_ends {cnt : Nat} {s : S} (hs : Inv s) (hcnt : cnt ≤ count s) :
    (∃ t, forLoop body cnt s = .ok t ∧ Inv t ∧ left t + cnt ≤ left s) ∨
      ∃ e, forLoop body cnt s = .error e ∧ Thrown e := by
  induction cnt generalizing s with
  | zero => exact .inl ⟨s, rfl, hs, Nat.le_refl _⟩
  | succ cnt ih =>
      have hunfold : forLoop body (cnt + 1) s = body s >>= forLoop body cnt := rfl
      rw [hunfold]
      rcases hbody s hs (by omega) with ⟨t, ht, hinv, hdrop, hleft⟩ | ⟨e, he, hthrown⟩
      · rw [ht]
        rcases ih hinv (by omega) with ⟨u, hu, hinv, hle⟩ | ⟨e, he, hthrown⟩
        · exact .inl ⟨u, hu, hinv, by omega⟩
        · exact .inr ⟨e, he, hthrown⟩
      · rw [he]
        exact .inr ⟨e, rfl, hthrown⟩

/-- The rounds end with nothing pending, or a piece of work throws. -/
theorem whileLoop_ends {s : S} (hs : Inv s) :
    (∃ t, (∀ fuel, left s < fuel → whileLoop count body fuel s = .ok (some t)) ∧ Inv t ∧
      count t = 0) ∨
      ∃ e, (∀ fuel, left s < fuel → whileLoop count body fuel s = .error e) ∧ Thrown e := by
  induction hn : left s using Nat.strongRecOn generalizing s with
  | ind n ih =>
      -- One round of the loop takes one unit of fuel and lowers `left`.
      have hround (fuel : Nat) : whileLoop count body (fuel + 1) s =
          if 0 < count s then forLoop body (count s) s >>= whileLoop count body fuel
          else pure (some s) := rfl
      have hfuel (fuel : Nat) (h : n < fuel) : ∃ m, fuel = m + 1 ∧ n ≤ m :=
        ⟨fuel - 1, by omega, by omega⟩
      by_cases hpos : 0 < count s
      · rcases forLoop_ends hbody hs (Nat.le_refl _) with ⟨t, ht, hinv, hle⟩ | ⟨e, he, hthrown⟩
        · rcases ih (left t) (by omega) hinv rfl with ⟨u, hu, hend⟩ | ⟨e, he, hthrown⟩
          · refine .inl ⟨u, fun fuel h => ?_, hend⟩
            rcases hfuel fuel h with ⟨m, rfl, hm⟩
            rw [hround, if_pos hpos, ht]
            exact hu m (by omega)
          · refine .inr ⟨e, fun fuel h => ?_, hthrown⟩
            rcases hfuel fuel h with ⟨m, rfl, hm⟩
            rw [hround, if_pos hpos, ht]
            exact he m (by omega)
        · refine .inr ⟨e, fun fuel h => ?_, hthrown⟩
          rcases hfuel fuel h with ⟨m, rfl, -⟩
          rw [hround, if_pos hpos, he]
          rfl
      · refine .inl ⟨s, fun fuel h => ?_, hs, Nat.eq_zero_of_not_pos hpos⟩
        rcases hfuel fuel h with ⟨m, rfl, -⟩
        rw [hround, if_neg hpos]
        rfl

end Invariant

end Rounds

end BlogSample
