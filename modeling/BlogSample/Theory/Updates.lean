import BlogSample.Theory.LostUpdates

/-!
# Updates of a Shared Cell

Three ways in which threads apply a function `f` to a shared cell a number of
times without losing an update: behind a lock, by an interlocked operation, and
by a loop around a compare and exchange. What the cell holds is always `f`
applied as often as updates have been completed, and every run ends.

A loop around a compare and exchange may have to repeat an update. The value
that it compares with need not tell whether the cell was written in between,
since `f` may lead back to it, but an update is a function of the value, so
nothing is lost then either. A repetition is the price of an update that
another thread has completed: each completed update makes at most one attempt
of each other thread fail (`Counts.failed_le`), and that bounds the steps of
any run, whatever the order in which the threads are scheduled.

## Main definitions

* `Cell`, `Place`, `locked`: Updates behind a lock.
* `atomic`: Interlocked updates.
* `CasCell`, `Attempt`, `cas`: Loops around a compare and exchange.

## Theorems

* `Behind.reachable`: The invariant of updates behind a lock.
* `locked_stuck`, `locked_run_length`: They are all made.
* `atomic_stuck`, `atomic_run_length`: Interlocked updates are all made.
* `Counts.reachable`: The invariant of the compare and exchange loops.
* `cas_stuck`, `cas_run_length`: They make all updates as well.
-/

namespace BlogSample

namespace Updates

open Transition Threads

universe u

variable {α : Type u}

/-! ### Behind a lock -/

/-- The cell and whether the lock is taken. -/
structure Cell (α : Type u) where
  value : α
  held : Bool
  deriving DecidableEq

/-- A thread outside the lock with the number of updates it has to make, one
    that has taken the lock, one that has read the cell, and one that has
    written it. -/
inductive Place (α : Type u)
  | outside (left : Nat)
  | inside (left : Nat)
  | loaded (left : Nat) (v : α)
  | stored (left : Nat)
  deriving DecidableEq

/-- `lock { x = f(x) }`, a number of times. -/
def locked (f : α → α) : Program (Cell α) (Place α) := fun _ c th =>
  match th with
  | .outside 0 => none
  | .outside (left + 1) => if c.held = true then none else some (⟨c.value, true⟩, .inside left)
  | .inside left => some (c, .loaded left c.value)
  | .loaded left v => some (⟨f v, c.held⟩, .stored left)
  | .stored left => some (⟨c.value, false⟩, .outside left)

/-- `n` threads are about to make `times` updates each. -/
def lockedStart (x₀ : α) (n times : Nat) (s : State (Cell α) (Place α)) : Prop :=
  s = ⟨⟨x₀, false⟩, List.replicate n (.outside times)⟩

namespace Place

/-- The updates that a thread has not made. -/
def remaining : Place α → Nat
  | .outside left => left
  | .inside left => left + 1
  | .loaded left _ => left + 1
  | .stored left => left

/-- Counts a thread that has the lock. -/
def holds : Place α → Nat
  | .outside _ => 0
  | _ => 1

/-- The steps that a thread has to take. -/
def steps : Place α → Nat
  | .outside left => 4 * left
  | .inside left => 4 * left + 3
  | .loaded left _ => 4 * left + 2
  | .stored left => 4 * left + 1

end Place

/-- What holds of a cell behind a lock. -/
structure Behind (f : α → α) (x₀ : α) (total : Nat) (s : State (Cell α) (Place α)) : Prop where
  /-- The lock is taken by as many threads as have it, none or one. -/
  lock : tally Place.holds s.threads = s.shared.held.toNat
  /-- What a thread has read is what the cell holds. -/
  fresh : ∀ (i left : Nat) (v : α), s.threads[i]? = some (.loaded left v) → v = s.shared.value
  /-- The cell has been updated as often as updates have been made. -/
  value : ∃ k, s.shared.value = f^[k] x₀ ∧ k + tally Place.remaining s.threads = total

/-- A step takes the lock, reads, writes, or releases the lock. -/
theorem locked_cases {f : α → α} {i : Nat} {c c' : Cell α} {th th' : Place α}
    (h : locked f i c th = some (c', th')) :
    (∃ left, th = .outside (left + 1) ∧ c.held = false ∧ c' = ⟨c.value, true⟩ ∧
      th' = .inside left) ∨
    (∃ left, th = .inside left ∧ c' = c ∧ th' = .loaded left c.value) ∨
    (∃ left v, th = .loaded left v ∧ c' = ⟨f v, c.held⟩ ∧ th' = .stored left) ∨
    ∃ left, th = .stored left ∧ c' = ⟨c.value, false⟩ ∧ th' = .outside left := by
  cases th with
  | outside left =>
      cases left with
      | zero => cases h
      | succ left =>
          unfold locked at h
          -- Who finds the lock held waits, which is no step.
          by_cases hheld : c.held = true
          · simp [hheld] at h
          · simp only [hheld, Bool.false_eq_true, if_false, Option.some.injEq, Prod.mk.injEq] at h
            exact .inl ⟨left, rfl, by simpa using hheld, h.1.symm, h.2.symm⟩
  | inside left =>
      simp only [locked, Option.some.injEq, Prod.mk.injEq] at h
      exact .inr (.inl ⟨left, rfl, h.1.symm, h.2.symm⟩)
  | loaded left v =>
      simp only [locked, Option.some.injEq, Prod.mk.injEq] at h
      exact .inr (.inr (.inl ⟨left, v, rfl, h.1.symm, h.2.symm⟩))
  | stored left =>
      simp only [locked, Option.some.injEq, Prod.mk.injEq] at h
      exact .inr (.inr (.inr ⟨left, rfl, h.1.symm, h.2.symm⟩))

namespace Behind

variable {f : α → α} {x₀ : α} {total : Nat} {s : State (Cell α) (Place α)}

theorem start (f : α → α) (x₀ : α) (n times : Nat) :
    Behind f x₀ (n * times) ⟨⟨x₀, false⟩, List.replicate n (.outside times)⟩ where
  lock := by
    rw [tally_replicate]
    rfl
  fresh := fun i left v h => by
    cases List.eq_of_mem_replicate (List.mem_of_getElem? h)
  value := ⟨0, rfl, by
    rw [tally_replicate, Nat.zero_add]
    rfl⟩

/-- Two threads cannot both have the lock. -/
theorem alone (h : Behind f x₀ total s) {i j : Nat} {a b : Place α}
    (ha : s.threads[i]? = some a) (hb : s.threads[j]? = some b) (hhold : a.holds = 1)
    (hhold' : b.holds = 1) : i = j := by
  by_contra hij
  have hle := add_le_tally Place.holds hij ha hb
  have hlock := h.lock
  have hone : s.shared.held.toNat ≤ 1 := Bool.toNat_le _
  omega

/-- A step that leaves the cell as it is and does not change how many updates
    the thread has to make. -/
theorem keep (h : Behind f x₀ total s) {i : Nat} {th th' : Place α} {held : Bool}
    (hth : s.threads[i]? = some th) (hremaining : th'.remaining = th.remaining)
    (hlock : th'.holds + s.shared.held.toNat = th.holds + held.toNat)
    (hfresh : ∀ left v, th' = .loaded left v → v = s.shared.value) :
    Behind f x₀ total ⟨⟨s.shared.value, held⟩, s.threads.set i th'⟩ where
  lock := by
    have hset := tally_set Place.holds th' hth
    have hold := h.lock
    change tally Place.holds (s.threads.set i th') = held.toNat
    omega
  fresh := fun j left v hj => by
    revert j left v
    refine fun j left v hj => forall_set (Q := fun _ b => ∀ left v, b = .loaded left v →
      v = s.shared.value) hfresh (fun j b _ hb left v hbv => ?_) j _ hj left v rfl
    exact h.fresh j left v (hbv ▸ hb)
  value := by
    rcases h.value with ⟨k, hk, htotal⟩
    have hset := tally_set Place.remaining th' hth
    refine ⟨k, hk, ?_⟩
    change k + tally Place.remaining (s.threads.set i th') = total
    omega

/-- The write of an update. -/
theorem write (h : Behind f x₀ total s) {i left : Nat} {v : α}
    (hth : s.threads[i]? = some (.loaded left v)) :
    Behind f x₀ total ⟨⟨f v, s.shared.held⟩, s.threads.set i (.stored left)⟩ where
  lock := by
    have hset := tally_set Place.holds (.stored left) hth
    rw [show (Place.stored left : Place α).holds = (Place.loaded left v).holds from rfl,
      Nat.add_right_cancel_iff] at hset
    exact hset.trans h.lock
  fresh := fun j left' v' hj => by
    -- No other thread is in the middle of an update.
    by_cases hji : j = i
    · subst hji
      rw [List.getElem?_set, if_pos rfl, if_pos (List.getElem?_eq_some_iff.mp hth).1,
        Option.some.injEq] at hj
      cases hj
    · rw [List.getElem?_set_ne (Ne.symm hji)] at hj
      exact absurd (h.alone hj hth rfl rfl) hji
  value := by
    rcases h.value with ⟨k, hk, htotal⟩
    have hset := tally_set Place.remaining (.stored left) hth
    have hold : (Place.loaded left v).remaining = left + 1 := rfl
    have hnew : (Place.stored left : Place α).remaining = left := rfl
    refine ⟨k + 1, ?_, ?_⟩
    · rw [Function.iterate_succ_apply', ← hk, ← h.fresh i left v hth]
    · change k + 1 + tally Place.remaining (s.threads.set i (.stored left)) = total
      omega

theorem step (h : Behind f x₀ total s) {i : Nat} {t : State (Cell α) (Place α)}
    (hstep : Threads.step (locked f) s i = some t) : Behind f x₀ total t := by
  rcases step_eq_some.mp hstep with ⟨th, c, th', hth, hm, rfl⟩
  rcases locked_cases hm with ⟨left, rfl, hheld, rfl, rfl⟩ | ⟨left, rfl, rfl, rfl⟩ |
    ⟨left, v, rfl, rfl, rfl⟩ | ⟨left, rfl, rfl, rfl⟩
  · exact h.keep hth rfl (by rw [hheld]; rfl) (fun left v hv => by cases hv)
  · exact h.keep hth rfl rfl (fun left v hv => by cases hv; rfl)
  · exact h.write hth
  · have hle := le_tally Place.holds (List.mem_of_getElem? hth)
    have hheld : s.shared.held = true := by
      rw [h.lock] at hle
      exact Bool.of_not_eq_false (fun hfree => by rw [hfree] at hle; cases hle)
    exact h.keep hth rfl (by rw [hheld]; rfl) (fun left v hv => by cases hv)

theorem reachable {n times : Nat}
    (h : (system (locked f) (lockedStart x₀ n times)).Reachable s) : Behind f x₀ (n * times) s :=
  System.Reachable.invariant (Behind f x₀ (n * times))
    (fun s (hs : lockedStart x₀ n times s) => by rw [hs]; exact start f x₀ n times)
    (fun _ _ _ hs hst => hs.step hst) h

end Behind

/-- Updates behind a lock come to an end only when all are made. -/
theorem locked_stuck {f : α → α} {x₀ : α} {n times : Nat} {s : State (Cell α) (Place α)}
    (h : (system (locked f) (lockedStart x₀ n times)).Reachable s) (hstuck : Stuck (locked f) s) :
    s.shared = ⟨f^[n * times] x₀, false⟩ ∧ ∀ th ∈ s.threads, th = .outside 0 := by
  have hinv := Behind.reachable h
  have hno := stuck_iff.mp hstuck
  -- A thread that has the lock can go on, so no thread has it.
  have hout : ∀ th ∈ s.threads, th.holds = 0 := by
    intro th hth
    rcases List.mem_iff_getElem?.mp hth with ⟨i, hi⟩
    have hnone := hno i th hi
    cases th with
    | outside left => rfl
    | inside left => cases hnone
    | loaded left v => cases hnone
    | stored left => cases hnone
  have hheld : s.shared.held = false := by
    have hzero : tally Place.holds s.threads = 0 := by
      by_contra hne
      rcases (tally_pos_iff _ _).mp (Nat.pos_of_ne_zero hne) with ⟨th, hth, hpos⟩
      rw [hout th hth] at hpos
      cases hpos
    cases hb : s.shared.held with
    | false => rfl
    | true =>
        have hlock := hinv.lock
        rw [hb, hzero] at hlock
        cases hlock
  have hdone : ∀ th ∈ s.threads, th = .outside 0 := by
    intro th hth
    rcases List.mem_iff_getElem?.mp hth with ⟨i, hi⟩
    have hnone := hno i th hi
    have hhold := hout th hth
    cases th with
    | outside left =>
        cases left with
        | zero => rfl
        | succ left =>
            rw [locked, if_neg (by rw [hheld]; exact Bool.false_ne_true)] at hnone
            cases hnone
    | inside left => cases hhold
    | loaded left v => cases hhold
    | stored left => cases hhold
  rcases hinv.value with ⟨k, hk, htotal⟩
  have hzero : tally Place.remaining s.threads = 0 := by
    by_contra hne
    rcases (tally_pos_iff _ _).mp (Nat.pos_of_ne_zero hne) with ⟨th, hth, hpos⟩
    rw [hdone th hth] at hpos
    cases hpos
  refine ⟨?_, hdone⟩
  rw [hzero, Nat.add_zero] at htotal
  rw [← htotal, ← hk, ← hheld]

/-- Updates behind a lock take four steps each. -/
theorem locked_run_length {f : α → α} {x₀ : α} {n times : Nat}
    {s₀ s : State (Cell α) (Place α)} (hinit : lockedStart x₀ n times s₀)
    {steps : List (State (Cell α) (Place α) × Nat)}
    (h : (system (locked f) (lockedStart x₀ n times)).Run s₀ steps s) :
    steps.length ≤ 4 * (n * times) := by
  have hle := run_length_le (fun s => tally Place.steps s.threads) (fun s i t _ hstep => ?_) hinit h
  · rw [show s₀ = _ from hinit] at hle
    simp only [tally_replicate, Place.steps] at hle
    rw [Nat.mul_left_comm]
    omega
  · rcases step_eq_some.mp hstep with ⟨th, c, th', hth, hm, rfl⟩
    have hset := tally_set Place.steps th' hth
    have hless : th'.steps < th.steps := by
      rcases locked_cases hm with ⟨left, rfl, -, -, rfl⟩ | ⟨left, rfl, -, rfl⟩ |
        ⟨left, v, rfl, -, rfl⟩ | ⟨left, rfl, -, rfl⟩ <;>
        simp only [Place.steps] <;> omega
    change tally Place.steps (s.threads.set i th') < tally Place.steps s.threads
    omega

/-! ### Interlocked updates -/

/-- `Interlocked` updates, one step each. A thread is the number of updates it
    has to make. -/
def atomic (f : α → α) : Program α Nat := fun _ x left =>
  match left with
  | 0 => none
  | left + 1 => some (f x, left)

/-- `n` threads are about to make `times` updates each. -/
def atomicStart (x₀ : α) (n times : Nat) (s : State α Nat) : Prop :=
  s = ⟨x₀, List.replicate n times⟩

/-- A step makes an update. -/
theorem atomic_cases {f : α → α} {i left left' : Nat} {x x' : α}
    (h : atomic f i x left = some (x', left')) : left = left' + 1 ∧ x' = f x := by
  cases left with
  | zero => cases h
  | succ left =>
      simp only [atomic, Option.some.injEq, Prod.mk.injEq] at h
      exact ⟨congrArg (· + 1) h.2, h.1.symm⟩

/-- The cell has been updated as often as updates have been made. -/
theorem atomic_value {f : α → α} {x₀ : α} {n times : Nat} {s : State α Nat}
    (h : (system (atomic f) (atomicStart x₀ n times)).Reachable s) :
    ∃ k, s.shared = f^[k] x₀ ∧ k + tally id s.threads = n * times := by
  refine System.Reachable.invariant
    (fun s => ∃ k, s.shared = f^[k] x₀ ∧ k + tally id s.threads = n * times) ?_ ?_ h
  · intro s hs
    rw [show s = _ from hs]
    exact ⟨0, rfl, by rw [tally_replicate, Nat.zero_add]; rfl⟩
  · rintro s i t ⟨k, hk, htotal⟩ hstep
    rcases step_eq_some.mp hstep with ⟨left, x, left', hth, hm, rfl⟩
    rcases atomic_cases hm with ⟨rfl, rfl⟩
    have hset := tally_set id left' hth
    refine ⟨k + 1, ?_, ?_⟩
    · rw [Function.iterate_succ_apply', ← hk]
    · change k + 1 + tally id (s.threads.set i left') = n * times
      simp only [id_eq] at hset
      omega

/-- Interlocked updates come to an end only when all are made. -/
theorem atomic_stuck {f : α → α} {x₀ : α} {n times : Nat} {s : State α Nat}
    (h : (system (atomic f) (atomicStart x₀ n times)).Reachable s) (hstuck : Stuck (atomic f) s) :
    s.shared = f^[n * times] x₀ := by
  rcases atomic_value h with ⟨k, hk, htotal⟩
  have hzero : tally id s.threads = 0 := by
    by_contra hne
    rcases (tally_pos_iff _ _).mp (Nat.pos_of_ne_zero hne) with ⟨left, hth, hpos⟩
    rcases List.mem_iff_getElem?.mp hth with ⟨i, hi⟩
    have hnone := stuck_iff.mp hstuck i left hi
    cases left with
    | zero => cases hpos
    | succ left => cases hnone
  rw [hk, ← htotal, hzero, Nat.add_zero]

/-- Interlocked updates take one step each. -/
theorem atomic_run_length {f : α → α} {x₀ : α} {n times : Nat} {s₀ s : State α Nat}
    (hinit : atomicStart x₀ n times s₀) {steps : List (State α Nat × Nat)}
    (h : (system (atomic f) (atomicStart x₀ n times)).Run s₀ steps s) :
    steps.length ≤ n * times := by
  have hle := run_length_le (fun s => tally id s.threads) (fun s i t _ hstep => ?_) hinit h
  · rw [show s₀ = _ from hinit] at hle
    simp only [tally_replicate, id_eq] at hle
    omega
  · rcases step_eq_some.mp hstep with ⟨left, x, left', hth, hm, rfl⟩
    have hset := tally_set id left' hth
    rcases atomic_cases hm with ⟨rfl, -⟩
    change tally id (s.threads.set i left') < tally id s.threads
    simp only [id_eq] at hset
    omega

/-! ### Compare and exchange -/

/-- The cell, with how many attempts to write it have succeeded and how many
    have failed. -/
structure CasCell (α : Type u) where
  value : α
  completed : Nat
  failed : Nat
  deriving DecidableEq

/-- A thread that is about to read the cell for the next of its updates, and
    one that is about to compare and exchange. -/
inductive Attempt (α : Type u)
  | idle (left : Nat)
  | loaded (left : Nat) (v : α)
  deriving DecidableEq

/-- `do { v = x; } while (v != CompareExchange(ref x, f(v), v));`, a number of
    times. -/
def cas [DecidableEq α] (f : α → α) : Program (CasCell α) (Attempt α) := fun _ c th =>
  match th with
  | .idle 0 => none
  | .idle (left + 1) => some (c, .loaded left c.value)
  | .loaded left v =>
      if c.value = v then some (⟨f v, c.completed + 1, c.failed⟩, .idle left)
      else some (⟨c.value, c.completed, c.failed + 1⟩, .idle (left + 1))

/-- `n` threads are about to make `times` updates each. -/
def casStart (x₀ : α) (n times : Nat) (s : State (CasCell α) (Attempt α)) : Prop :=
  s = ⟨⟨x₀, 0, 0⟩, List.replicate n (.idle times)⟩

namespace Attempt

/-- The updates that a thread has not made. -/
def remaining : Attempt α → Nat
  | .idle left => left
  | .loaded left _ => left + 1

/-- Counts a thread in the middle of an attempt. -/
def under : Attempt α → Nat
  | .idle _ => 0
  | .loaded _ _ => 1

/-- Counts a thread whose attempt will fail, as the cell is. -/
def stale [DecidableEq α] (x : α) : Attempt α → Nat
  | .idle _ => 0
  | .loaded _ v => if x = v then 0 else 1

theorem stale_le_under [DecidableEq α] (x : α) (th : Attempt α) : th.stale x ≤ th.under := by
  cases th with
  | idle left => exact Nat.le_refl 0
  | loaded left v =>
      change (if x = v then 0 else 1) ≤ 1
      by_cases hv : x = v
      · rw [if_pos hv]
        exact Nat.zero_le 1
      · exact Nat.le_of_eq (if_neg hv)

theorem under_le_remaining (th : Attempt α) : th.under ≤ th.remaining := by
  cases th with
  | idle left => exact Nat.zero_le _
  | loaded left v => exact Nat.le_add_left 1 left

theorem under_le_one (th : Attempt α) : th.under ≤ 1 := by
  cases th with
  | idle left => exact Nat.zero_le _
  | loaded left v => exact Nat.le_refl 1

end Attempt

section Cas

variable [DecidableEq α]

/-- A step reads, succeeds, or fails. -/
theorem cas_cases {f : α → α} {i : Nat} {c c' : CasCell α} {th th' : Attempt α}
    (h : cas f i c th = some (c', th')) :
    (∃ left, th = .idle (left + 1) ∧ c' = c ∧ th' = .loaded left c.value) ∨
    (∃ left, th = .loaded left c.value ∧ c' = ⟨f c.value, c.completed + 1, c.failed⟩ ∧
      th' = .idle left) ∨
    ∃ left v, th = .loaded left v ∧ c.value ≠ v ∧ c' = ⟨c.value, c.completed, c.failed + 1⟩ ∧
      th' = .idle (left + 1) := by
  cases th with
  | idle left =>
      cases left with
      | zero => cases h
      | succ left =>
          simp only [cas, Option.some.injEq, Prod.mk.injEq] at h
          exact .inl ⟨left, rfl, h.1.symm, h.2.symm⟩
  | loaded left v =>
      unfold cas at h
      by_cases hv : c.value = v
      · subst hv
        simp only [if_true, Option.some.injEq, Prod.mk.injEq] at h
        exact .inr (.inl ⟨left, rfl, h.1.symm, h.2.symm⟩)
      · simp only [hv, if_false, Option.some.injEq, Prod.mk.injEq] at h
        exact .inr (.inr ⟨left, v, rfl, hv, h.1.symm, h.2.symm⟩)

/-- What holds of a cell that is updated by compare and exchange. -/
structure Counts (f : α → α) (x₀ : α) (n total : Nat) (s : State (CasCell α) (Attempt α)) :
    Prop where
  length : s.threads.length = n
  /-- The cell has been updated as often as attempts have succeeded. -/
  value : s.shared.value = f^[s.shared.completed] x₀
  rest : s.shared.completed + tally Attempt.remaining s.threads = total
  /-- An attempt that has failed or will fail is one of those that an update
      of another thread has spoilt. -/
  spoilt : s.shared.failed + tally (Attempt.stale s.shared.value) s.threads ≤
    (n - 1) * s.shared.completed

namespace Counts

variable {f : α → α} {x₀ : α} {n total : Nat} {s : State (CasCell α) (Attempt α)}

theorem start (f : α → α) (x₀ : α) (n times : Nat) :
    Counts f x₀ n (n * times) ⟨⟨x₀, 0, 0⟩, List.replicate n (.idle times)⟩ where
  length := List.length_replicate
  value := rfl
  rest := by
    rw [tally_replicate, Nat.zero_add]
    rfl
  spoilt := by
    rw [tally_replicate]
    exact Nat.zero_le _

/-- Updates that have been completed and threads in the middle of one are not
    more than all. -/
theorem under_le (h : Counts f x₀ n total s) :
    s.shared.completed + tally Attempt.under s.threads ≤ total := by
  have hle := tally_mono Attempt.under_le_remaining s.threads
  have hrest := h.rest
  omega

/-- A thread in the middle of an attempt is one of `n`. -/
theorem under_others (h : Counts f x₀ n total s) {i left : Nat} {v : α}
    (hth : s.threads[i]? = some (.loaded left v)) :
    tally Attempt.under (s.threads.set i (.idle left)) ≤ n - 1 := by
  have hset := tally_set Attempt.under (.idle left) hth
  have hle := tally_le_length (l := s.threads) (fun th _ => Attempt.under_le_one th)
  rw [h.length] at hle
  have hold : (Attempt.loaded left v).under = 1 := rfl
  have hnew : (Attempt.idle left : Attempt α).under = 0 := rfl
  omega

theorem read (h : Counts f x₀ n total s) {i left : Nat}
    (hth : s.threads[i]? = some (.idle (left + 1))) :
    Counts f x₀ n total ⟨s.shared, s.threads.set i (.loaded left s.shared.value)⟩ where
  length := List.length_set.trans h.length
  value := h.value
  rest := by
    have hset := tally_set Attempt.remaining (.loaded left s.shared.value) hth
    rw [show (Attempt.loaded left s.shared.value).remaining =
      (Attempt.idle (left + 1) : Attempt α).remaining from rfl, Nat.add_right_cancel_iff] at hset
    exact hset ▸ h.rest
  spoilt := by
    -- What has just been read is what the cell holds.
    have hset := tally_set (Attempt.stale s.shared.value) (.loaded left s.shared.value) hth
    rw [show (Attempt.loaded left s.shared.value).stale s.shared.value = 0 from if_pos rfl,
      show (Attempt.idle (left + 1)).stale s.shared.value = 0 from rfl] at hset
    exact Nat.le_trans (Nat.le_of_eq (congrArg (s.shared.failed + ·) hset)) h.spoilt

theorem succeed (h : Counts f x₀ n total s) {i left : Nat}
    (hth : s.threads[i]? = some (.loaded left s.shared.value)) :
    Counts f x₀ n total ⟨⟨f s.shared.value, s.shared.completed + 1, s.shared.failed⟩,
      s.threads.set i (.idle left)⟩ where
  length := List.length_set.trans h.length
  value := by rw [Function.iterate_succ_apply', ← h.value]
  rest := by
    have hset := tally_set Attempt.remaining (.idle left) hth
    have hrest := h.rest
    have hold : (Attempt.loaded left s.shared.value).remaining = left + 1 := rfl
    have hnew : (Attempt.idle left : Attempt α).remaining = left := rfl
    change s.shared.completed + 1 + tally Attempt.remaining (s.threads.set i (.idle left)) = total
    omega
  spoilt := by
    -- The update spoils at most the attempts of the other threads.
    have hstale := tally_mono (Attempt.stale_le_under (f s.shared.value))
      (s.threads.set i (.idle left))
    have hothers := h.under_others hth
    have hspoilt := h.spoilt
    change s.shared.failed + tally (Attempt.stale (f s.shared.value))
      (s.threads.set i (.idle left)) ≤ (n - 1) * (s.shared.completed + 1)
    rw [Nat.mul_add_one]
    omega

theorem fail (h : Counts f x₀ n total s) {i left : Nat} {v : α}
    (hth : s.threads[i]? = some (.loaded left v)) (hne : s.shared.value ≠ v) :
    Counts f x₀ n total ⟨⟨s.shared.value, s.shared.completed, s.shared.failed + 1⟩,
      s.threads.set i (.idle (left + 1))⟩ where
  length := List.length_set.trans h.length
  value := h.value
  rest := by
    have hset := tally_set Attempt.remaining (.idle (left + 1)) hth
    rw [show (Attempt.loaded left v).remaining =
      (Attempt.idle (left + 1) : Attempt α).remaining from rfl, Nat.add_right_cancel_iff] at hset
    exact hset ▸ h.rest
  spoilt := by
    have hset := tally_set (Attempt.stale s.shared.value) (.idle (left + 1)) hth
    rw [show (Attempt.loaded left v).stale s.shared.value = 1 from if_neg hne,
      show (Attempt.idle (left + 1)).stale s.shared.value = 0 from rfl] at hset
    have hspoilt := h.spoilt
    change s.shared.failed + 1 + tally (Attempt.stale s.shared.value)
      (s.threads.set i (.idle (left + 1))) ≤ (n - 1) * s.shared.completed
    omega

theorem step (h : Counts f x₀ n total s) {i : Nat} {t : State (CasCell α) (Attempt α)}
    (hstep : Threads.step (cas f) s i = some t) : Counts f x₀ n total t := by
  rcases step_eq_some.mp hstep with ⟨th, c, th', hth, hm, rfl⟩
  rcases cas_cases hm with ⟨left, rfl, rfl, rfl⟩ | ⟨left, rfl, rfl, rfl⟩ |
    ⟨left, v, rfl, hne, rfl, rfl⟩
  · exact h.read hth
  · exact h.succeed hth
  · exact h.fail hth hne

theorem reachable {times : Nat}
    (h : (system (cas f) (casStart x₀ n times)).Reachable s) : Counts f x₀ n (n * times) s :=
  System.Reachable.invariant (Counts f x₀ n (n * times))
    (fun s (hs : casStart x₀ n times s) => by rw [hs]; exact start f x₀ n times)
    (fun _ _ _ hs hst => hs.step hst) h

/-- For every update that is completed, at most one attempt of each other
    thread fails. -/
theorem failed_le (h : Counts f x₀ n total s) :
    s.shared.failed ≤ (n - 1) * s.shared.completed :=
  Nat.le_trans (Nat.le_add_right _ _) h.spoilt

/-- The steps that have been taken are not more than twice the attempts there
    can be. -/
theorem taken_le {times : Nat} (h : Counts f x₀ n (n * times) s) :
    2 * (s.shared.completed + s.shared.failed) + tally Attempt.under s.threads ≤
      2 * n * (n * times) := by
  have hfailed := h.failed_le
  have hunder := h.under_le
  cases n with
  | zero =>
      rw [Nat.zero_mul] at hunder
      rw [show s.shared.completed = 0 by omega] at hfailed ⊢
      omega
  | succ n =>
      rw [Nat.add_sub_cancel] at hfailed
      calc 2 * (s.shared.completed + s.shared.failed) + tally Attempt.under s.threads
          ≤ 2 * (s.shared.completed + n * s.shared.completed) +
              tally Attempt.under s.threads := by omega
        _ = 2 * (n + 1) * s.shared.completed + tally Attempt.under s.threads := by
              rw [Nat.mul_assoc, Nat.add_mul, Nat.one_mul, Nat.add_comm (n * _)]
        _ ≤ 2 * (n + 1) * s.shared.completed + 2 * (n + 1) * tally Attempt.under s.threads :=
              Nat.add_le_add_left (Nat.le_mul_of_pos_left _ (by omega)) _
        _ = 2 * (n + 1) * (s.shared.completed + tally Attempt.under s.threads) :=
              (Nat.mul_add _ _ _).symm
        _ ≤ 2 * (n + 1) * ((n + 1) * times) := Nat.mul_le_mul_left _ hunder

end Counts

/-- A compare and exchange loop that cannot go on has been left. -/
theorem cas_ended {f : α → α} {s : State (CasCell α) (Attempt α)} (hstuck : Stuck (cas f) s) :
    ∀ th ∈ s.threads, th = .idle 0 := by
  intro th hth
  rcases List.mem_iff_getElem?.mp hth with ⟨i, hi⟩
  have hnone := stuck_iff.mp hstuck i th hi
  cases th with
  | idle left =>
      cases left with
      | zero => rfl
      | succ left => cases hnone
  | loaded left v =>
      unfold cas at hnone
      by_cases hv : s.shared.value = v
      · simp [hv] at hnone
      · simp [hv] at hnone

/-- Compare and exchange loops come to an end only when all updates are made. -/
theorem cas_stuck {f : α → α} {x₀ : α} {n times : Nat} {s : State (CasCell α) (Attempt α)}
    (h : (system (cas f) (casStart x₀ n times)).Reachable s) (hstuck : Stuck (cas f) s) :
    s.shared.value = f^[n * times] x₀ ∧ s.shared.completed = n * times := by
  have hinv := Counts.reachable h
  have hzero : tally Attempt.remaining s.threads = 0 :=
    tally_eq_zero (fun th hth => by rw [cas_ended hstuck th hth]; rfl)
  have hrest := hinv.rest
  rw [hzero, Nat.add_zero] at hrest
  exact ⟨hrest ▸ hinv.value, hrest⟩

/-- However the threads are scheduled, the loops end within a number of steps
    that grows with the square of the number of threads. -/
theorem cas_run_length {f : α → α} {x₀ : α} {n times : Nat}
    {s₀ s : State (CasCell α) (Attempt α)} (hinit : casStart x₀ n times s₀)
    {steps : List (State (CasCell α) (Attempt α) × Nat)}
    (h : (system (cas f) (casStart x₀ n times)).Run s₀ steps s) :
    steps.length ≤ 2 * n * (n * times) := by
  let taken : State (CasCell α) (Attempt α) → Nat := fun s =>
    2 * (s.shared.completed + s.shared.failed) + tally Attempt.under s.threads
  have hle := run_length_le (fun s => 2 * n * (n * times) - taken s)
    (fun s i t hs hstep => ?_) hinit h
  · omega
  · have hbound := (Counts.reachable (.step s i t hs hstep)).taken_le
    have hmore : taken s < taken t := by
      rcases step_eq_some.mp hstep with ⟨th, c, th', hth, hm, rfl⟩
      have hset := tally_set Attempt.under th' hth
      rcases cas_cases hm with ⟨left, rfl, rfl, rfl⟩ | ⟨left, rfl, rfl, rfl⟩ |
        ⟨left, v, rfl, -, rfl, rfl⟩ <;>
        simp only [taken, Attempt.under] at hset ⊢ <;> omega
    have htaken : taken t ≤ 2 * n * (n * times) := hbound
    omega

end Cas

end Updates

end BlogSample
