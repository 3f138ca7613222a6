import BlogSample.Theory.LockOrder
import Mathlib.Data.Set.Basic

/-!
# Threads That Take One Lock inside Another

The smallest programs that can deadlock: each thread takes a lock, takes another
one while it has the first, and releases both. Which locks these are may differ
from thread to thread.

A set of threads is closed in a state if each of them has its first lock and
the second one belongs to a thread of the set. Closed sets last, so with one
the threads cannot all end. Without one they can (`completes_iff`): if some
thread has its first lock, then one of those finds the second one free, since
otherwise all of them together would be closed; and if none has, no lock is
taken at all.

## Main definitions

* `Nest`: The two locks, and what the thread writes before and after.
* `Nest.program`, `Nest.waiting`: All that the thread does, and what is left of
  it while it waits for the second lock.
* `At`: What may be left of a program.
* `Closed`: A set of threads that wait for each other.
* `Ring`: Each thread takes the first lock of the next one inside its own.

## Theorems

* `Nested.reachable`: What is left of a program at any time.
* `Closed.lasts`: Closed sets last.
* `completes_iff`: When all threads can still end.
* `stuck_done`: Where no thread can move.
* `Ring.deadlocked_iff`: Who waits for whom in a ring.
-/

namespace BlogSample

namespace LockOrder

open Transition Threads

universe u v

/-- The lock that a thread takes first and the one that it takes inside, and
    what it writes before and after. -/
structure Nest (κ : Type u) (β : Type v) where
  before : List β
  outer : κ
  inner : κ
  after : List β
  outer_ne_inner : outer ≠ inner

namespace Nest

variable {κ : Type u} {β : Type v}

/-- What is left after the second lock has been released. -/
def leaving (n : Nest κ β) : List (Op κ β) :=
  .release n.outer :: n.after.map .emit

/-- What is left while the thread waits for the second lock. -/
def waiting (n : Nest κ β) : List (Op κ β) :=
  .acquire n.inner :: .release n.inner :: n.leaving

/-- What is left after the thread has written what comes before the locks. -/
def entering (n : Nest κ β) : List (Op κ β) :=
  .acquire n.outer :: n.waiting

/-- All that the thread does. -/
def program (n : Nest κ β) : List (Op κ β) :=
  n.before.map .emit ++ n.entering

end Nest

variable {κ : Type u} {β : Type v} [DecidableEq κ]

/-- What may be left of a program. -/
inductive At (n : Nest κ β) : List (Op κ β) → Prop
  | before (bs : List β) : At n (bs.map .emit ++ n.entering)
  | waiting : At n n.waiting
  | both : At n (.release n.inner :: n.leaving)
  | leaving : At n n.leaving
  | after (bs : List β) : At n (bs.map .emit)

omit [DecidableEq κ] in
/-- A thread that waits for the second lock of a nest has that nest's locks. -/
theorem At.locks_of_waiting {n m : Nest κ β} (h : At n m.waiting) :
    n.outer = m.outer ∧ n.inner = m.inner := by
  generalize hops : m.waiting = ops at h
  cases h with
  | before bs =>
      cases bs with
      | nil =>
          -- The second instruction of the one takes a lock, and that of the other releases one.
          have hsecond := congrArg (fun ops => ops[1]?) hops
          cases hsecond
      | cons b bs => cases hops
  | waiting =>
      simp only [Nest.waiting, Nest.leaving, List.cons.injEq, Op.acquire.injEq,
        Op.release.injEq] at hops
      exact ⟨hops.2.2.1.symm, hops.1.symm⟩
  | both => cases hops
  | leaving => cases hops
  | after bs =>
      cases bs with
      | nil => cases hops
      | cons b bs => cases hops

/-- No permission is needed to take a lock. -/
def anyway (_ _ : κ) : Prop := True

omit [DecidableEq κ] in
/-- What is left after one more instruction. -/
theorem At.tail {n : Nest κ β} {op : Op κ β} {rest : List (Op κ β)} (h : At n (op :: rest)) :
    At n rest := by
  -- From each place of the nest, one operation leads to the next.
  generalize hops : op :: rest = ops at h
  cases h with
  | before bs =>
      cases bs with
      | nil =>
          cases hops
          exact .waiting
      | cons b bs =>
          cases hops
          exact .before bs
  | waiting =>
      cases hops
      exact .both
  | both =>
      cases hops
      exact .leaving
  | leaving =>
      cases hops
      exact .after n.after
  | after bs =>
      cases bs with
      | nil => cases hops
      | cons b bs =>
          cases hops
          exact .after bs

theorem disciplined_emit (held : List κ) (bs : List β) (rest : List (Op κ β)) :
    Disciplined anyway held (bs.map .emit ++ rest) ↔ Disciplined anyway held rest := by
  induction bs with
  | nil => rfl
  | cons b bs ih => exact ih

theorem disciplined_after (held : List κ) (bs : List β) :
    Disciplined anyway held (bs.map (Op.emit (κ := κ))) ↔ held = [] := by
  have h := disciplined_emit held bs []
  rwa [List.append_nil] at h

theorem disciplined_leaving (n : Nest κ β) (held : List κ) :
    Disciplined anyway held n.leaving ↔ n.outer ∈ held ∧ held.erase n.outer = [] := by
  unfold Nest.leaving
  rw [Disciplined, disciplined_after]

/-- A thread that waits for its second lock has its first one, and no other. -/
theorem held_waiting {n : Nest κ β} {held : List κ} (h : Disciplined anyway held n.waiting) :
    held = [n.outer] := by
  have hrest := h.2.2
  rw [List.erase_cons_head, disciplined_leaving] at hrest
  have hlength := List.length_erase_of_mem hrest.1
  rw [hrest.2, List.length_nil] at hlength
  have hpos := List.length_pos_of_mem hrest.1
  rcases List.length_eq_one_iff.mp (by omega : held.length = 1) with ⟨k, rfl⟩
  rw [List.mem_singleton.mp hrest.1]

/-- A thread that has not taken its first lock has none. -/
theorem held_entering {n : Nest κ β} {held : List κ} (h : Disciplined anyway held n.entering) :
    held = [] := by
  have hone := held_waiting h.2
  rw [List.cons_eq_cons] at hone
  exact hone.2

theorem disciplined_program (n : Nest κ β) : Disciplined anyway [] n.program := by
  unfold Nest.program
  rw [disciplined_emit]
  refine ⟨fun k _ => trivial, fun k _ => trivial, List.mem_cons_self, ?_⟩
  rw [List.erase_cons_head, disciplined_leaving]
  exact ⟨List.mem_cons_self, List.erase_cons_head _ _⟩

/-! ### What is left at any time -/

/-- Who has which lock, and what each thread has left. -/
structure Nested (nests : List (Nest κ β)) (s : State (Locks κ β) (List (Op κ β))) : Prop where
  sound : Sound anyway s
  left : ∀ (i : Nat) (ops : List (Op κ β)), s.threads[i]? = some ops →
    ∃ n, nests[i]? = some n ∧ At n ops

namespace Nested

variable {nests : List (Nest κ β)} {s t : State (Locks κ β) (List (Op κ β))} {reentrant : Bool}

theorem step (h : Nested nests s) {i : Nat} (hstep : Threads.step (run reentrant) s i = some t) :
    Nested nests t where
  sound := h.sound.step hstep
  left := by
    rcases step_eq_some.mp hstep with ⟨ops, s', rest, hth, hm, rfl⟩
    rcases run_tail hm with ⟨op, rfl⟩
    rcases h.left i _ hth with ⟨n, hn, hat⟩
    exact forall_set ⟨n, hn, hat.tail⟩ (fun j ops _ hops => h.left j ops hops)

theorem reachable (h : (system (run reentrant) (start (nests.map Nest.program))).Reachable s) :
    Nested nests s := by
  refine System.Reachable.invariant (Nested nests) (fun s hs => ?_)
    (fun _ _ _ hs hst => hs.step hst) h
  have hstart : s = ⟨⟨fun _ => none, []⟩, nests.map Nest.program⟩ := hs
  subst hstart
  refine ⟨Sound.of_start (fun ops hops => ?_), fun i ops hops => ?_⟩
  · rcases List.mem_map.mp hops with ⟨n, -, rfl⟩
    exact disciplined_program n
  · rw [List.getElem?_map, Option.map_eq_some_iff] at hops
    rcases hops with ⟨n, hn, rfl⟩
    exact ⟨n, hn, .before n.before⟩

/-- A thread that has a lock has begun and has not ended. -/
theorem owner_left (h : Nested nests s) {m : κ} {j c : Nat}
    (hm : s.shared.owner m = some (j, c)) :
    ∃ n ops, nests[j]? = some n ∧ s.threads[j]? = some ops ∧ ops ≠ [] ∧ ops ≠ n.entering ∧
      (ops = n.waiting → m = n.outer) := by
  rcases h.sound.owner_unfinished hm with ⟨ops, held, hth, hne, hdisc, hmem, -⟩
  rcases h.left j ops hth with ⟨n, hn, -⟩
  refine ⟨n, ops, hn, hth, hne, fun heq => ?_, fun heq => ?_⟩
  · rw [heq] at hdisc
    rw [held_entering hdisc] at hmem
    cases hmem
  · rw [heq] at hdisc
    rw [held_waiting hdisc] at hmem
    exact List.mem_singleton.mp hmem

/-- A thread that waits for its second lock has its first one. -/
theorem owner_of_waiting (h : Nested nests s) {i : Nat} {n : Nest κ β}
    (hth : s.threads[i]? = some n.waiting) : ∃ c, s.shared.owner n.outer = some (i, c) := by
  rcases h.sound.held i _ hth with ⟨held, hdisc, hcount⟩
  have hone := hcount n.outer
  rw [held_waiting hdisc, List.count_singleton_self] at hone
  unfold heldBy at hone
  cases hm : s.shared.owner n.outer with
  | none =>
      rw [hm] at hone
      cases hone
  | some r =>
      rcases r with ⟨j, c⟩
      simp only [hm] at hone
      by_cases hj : j = i
      · exact ⟨c, by rw [hj]⟩
      · rw [if_neg hj] at hone
        cases hone

end Nested

/-! ### Threads that wait for each other -/

/-- A set of threads that all wait for their second lock, each for one that
    belongs to a thread of the set. -/
structure Closed (nests : List (Nest κ β)) (s : State (Locks κ β) (List (Op κ β)))
    (C : Set Nat) : Prop where
  nonempty : C.Nonempty
  waits : ∀ i ∈ C, ∃ n, nests[i]? = some n ∧ s.threads[i]? = some n.waiting ∧
    ∃ j ∈ C, ∃ c, s.shared.owner n.inner = some (j, c)

/-- Some threads wait for each other. -/
def Deadlocked (nests : List (Nest κ β)) (s : State (Locks κ β) (List (Op κ β))) : Prop :=
  ∃ C, Closed nests s C

namespace Closed

variable {nests : List (Nest κ β)} {s t : State (Locks κ β) (List (Op κ β))} {reentrant : Bool}
  {C : Set Nat}

/-- No thread of a closed set can move. -/
theorem notMem_of_step (h : Closed nests s C) (hs : Nested nests s) {i : Nat}
    (hstep : Threads.step (run reentrant) s i = some t) : i ∉ C := by
  intro hi
  rcases h.waits i hi with ⟨n, hn, hwait, j, hj, c, hc⟩
  rcases step_eq_some.mp hstep with ⟨ops, s', rest, hth, hm, rfl⟩
  rw [hwait, Option.some.injEq] at hth
  subst hth
  rcases run_cases hm with ⟨b, heq, -⟩ | ⟨m, heq, hfree, -⟩ | ⟨m, c', heq, -, -⟩
  · cases heq
  -- The lock would have to be its own, but the only one it has is its first.
  · cases heq
    rcases hfree with hfree | ⟨c', hown⟩
    · rw [hc] at hfree
      cases hfree
    · rcases hs.owner_left hown with ⟨n', ops, hn', hth, -, -, houter⟩
      rw [hn, Option.some.injEq] at hn'
      rw [hwait, Option.some.injEq] at hth
      subst hn' hth
      exact n.outer_ne_inner (houter rfl).symm
  · cases heq

/-- A step of a thread that is not in the set does not change who has a lock
    of a thread in the set. -/
theorem owner_iff {i j : Nat} (hij : j ≠ i) (hstep : Threads.step (run reentrant) s i = some t)
    (m : κ) (c : Nat) : t.shared.owner m = some (j, c) ↔ s.shared.owner m = some (j, c) := by
  rcases step_eq_some.mp hstep with ⟨ops, s', rest, hth, hm, rfl⟩
  rcases run_cases hm with ⟨b, -, rfl⟩ | ⟨k, -, hfree, rfl⟩ | ⟨k, d, -, hd, rfl⟩
  · exact Iff.rfl
  -- A lock that is taken was free or the thread's own.
  · change Function.update s.shared.owner k _ m = _ ↔ _
    by_cases hmk : m = k
    · rw [hmk, Function.update_self]
      constructor
      · intro h
        cases h
        exact absurd rfl hij
      · intro h
        rcases hfree with hfree | ⟨d, hfree⟩
        · rw [h] at hfree
          cases hfree
        · rw [h] at hfree
          cases hfree
          exact absurd rfl hij
    · rw [Function.update_of_ne hmk]
  -- A lock that is left was the thread's own.
  · change Function.update s.shared.owner k _ m = _ ↔ _
    by_cases hmk : m = k
    · rw [hmk, Function.update_self]
      constructor
      · intro h
        by_cases hone : d = 1
        · rw [if_pos hone] at h
          cases h
        · rw [if_neg hone] at h
          cases h
          exact absurd rfl hij
      · intro h
        rw [h] at hd
        cases hd
        exact absurd rfl hij
    · rw [Function.update_of_ne hmk]

/-- Whether a set of threads is closed does not depend on a thread outside it. -/
theorem step_iff {i : Nat} (hi : i ∉ C) (hstep : Threads.step (run reentrant) s i = some t) :
    Closed nests t C ↔ Closed nests s C := by
  have hthreads : ∀ k ∈ C, t.threads[k]? = s.threads[k]? := by
    intro k hk
    rcases step_eq_some.mp hstep with ⟨ops, s', rest, hth, hm, rfl⟩
    exact List.getElem?_set_ne (ne_of_mem_of_not_mem hk hi).symm
  have howner : ∀ k ∈ C, ∀ m c, t.shared.owner m = some (k, c) ↔ s.shared.owner m = some (k, c) :=
    fun k hk m c => owner_iff (ne_of_mem_of_not_mem hk hi) hstep m c
  constructor
  · intro h
    refine ⟨h.nonempty, fun k hk => ?_⟩
    rcases h.waits k hk with ⟨n, hn, hwait, j, hj, c, hc⟩
    exact ⟨n, hn, hthreads k hk ▸ hwait, j, hj, c, (howner j hj _ c).mp hc⟩
  · intro h
    refine ⟨h.nonempty, fun k hk => ?_⟩
    rcases h.waits k hk with ⟨n, hn, hwait, j, hj, c, hc⟩
    exact ⟨n, hn, (hthreads k hk).trans hwait, j, hj, c, (howner j hj _ c).mpr hc⟩

/-- The thread that a thread of the set waits for has that lock as its first
    one, and waits itself. -/
theorem next (h : Closed nests s C) (hs : Nested nests s) {i : Nat} (hi : i ∈ C) :
    ∃ n, nests[i]? = some n ∧ s.threads[i]? = some n.waiting ∧ ∃ j ∈ C, ∃ n',
      nests[j]? = some n' ∧ s.threads[j]? = some n'.waiting ∧ n.inner = n'.outer := by
  rcases h.waits i hi with ⟨n, hn, hth, j, hj, c, hown⟩
  rcases h.waits j hj with ⟨n', hn', hth', -⟩
  rcases hs.owner_left hown with ⟨n'', ops, hn'', hops, -, -, houter⟩
  rw [hn', Option.some.injEq] at hn''
  rw [hth', Option.some.injEq] at hops
  subst hn'' hops
  exact ⟨n, hn, hth, j, hj, n', hn', hth', houter rfl⟩

/-- Closed sets last. -/
theorem lasts (h : Closed nests s C) (hs : Nested nests s) {i : Nat}
    (hstep : Threads.step (run reentrant) s i = some t) : Closed nests t C :=
  (step_iff (h.notMem_of_step hs hstep) hstep).mpr h

end Closed

/-! ### When all threads can still end -/

omit [DecidableEq κ] in
/-- Where a thread is, by its next instruction: it is about to take its first
    lock, waits for its second, or is not about to take a lock. -/
theorem At.cases_next {n : Nest κ β} {op : Op κ β} {rest : List (Op κ β)} (h : At n (op :: rest)) :
    op :: rest = n.entering ∨ op :: rest = n.waiting ∨
      ((∀ m, op ≠ .acquire m) ∧ rest ≠ n.waiting) := by
  -- What is left before the first lock is longer than what is left behind it.
  have hlength : ∀ (bs : List β) (n : Nest κ β), bs.map .emit ++ n.entering ≠ n.waiting := by
    intro bs n heq
    have hlen := congrArg List.length heq
    rw [List.length_append, Nest.entering, List.length_cons] at hlen
    omega
  generalize hops : op :: rest = ops at h
  cases h with
  | before bs =>
      cases bs with
      | nil => exact .inl rfl
      | cons b bs =>
          cases hops
          exact .inr (.inr ⟨fun m hm => (by cases hm), hlength bs n⟩)
  | waiting => exact .inr (.inl rfl)
  | both =>
      cases hops
      refine .inr (.inr ⟨fun m hm => (by cases hm), fun heq => ?_⟩)
      cases heq
  | leaving =>
      cases hops
      refine .inr (.inr ⟨fun m hm => (by cases hm), fun heq => ?_⟩)
      cases hafter : n.after with
      | nil =>
          rw [hafter] at heq
          cases heq
      | cons b bs =>
          rw [hafter] at heq
          cases heq
  | after bs =>
      cases bs with
      | nil => cases hops
      | cons b bs =>
          cases hops
          refine .inr (.inr ⟨fun m hm => (by cases hm), fun heq => ?_⟩)
          cases bs with
          | nil => cases heq
          | cons b bs => cases heq

section Progress

variable {nests : List (Nest κ β)} {s : State (Locks κ β) (List (Op κ β))}

/-- A thread that is not about to take a lock has a step. -/
theorem exists_step (h : Nested nests s) (reentrant : Bool) {i : Nat} {op : Op κ β}
    {rest : List (Op κ β)} (hth : s.threads[i]? = some (op :: rest))
    (hop : ∀ m, op ≠ .acquire m ∨ s.shared.owner m = none) :
    ∃ s', Threads.step (run reentrant) s i = some ⟨s', s.threads.set i rest⟩ := by
  cases op with
  | emit b => exact ⟨_, step_of hth rfl⟩
  | acquire m =>
      have hm : s.shared.owner m = none := (hop m).resolve_left (fun hne => hne rfl)
      exact ⟨_, step_of hth (by simp only [run, hm]; rfl)⟩
  | release m =>
      rcases h.sound.held i _ hth with ⟨held, ⟨hmem, -⟩, hcount⟩
      -- A thread only releases what it holds.
      have hpos : 0 < heldBy s.shared.owner i m := by
        rw [← hcount m]
        exact List.count_pos_iff.mpr hmem
      unfold heldBy at hpos
      cases hm : s.shared.owner m with
      | none =>
          rw [hm] at hpos
          cases hpos
      | some r =>
          rcases r with ⟨j, c⟩
          simp only [hm] at hpos
          by_cases hj : j = i
          · exact ⟨_, step_of hth (by simp only [run, hm, if_pos hj]; rfl)⟩
          · rw [if_neg hj] at hpos
            cases hpos

/-- A step after which its thread does not wait makes no closed set. -/
theorem not_deadlocked_of_step (hnot : ¬ Deadlocked nests s) {reentrant : Bool} {i : Nat}
    {s' : Locks κ β} {rest : List (Op κ β)} {n : Nest κ β}
    (hstep : Threads.step (run reentrant) s i = some ⟨s', s.threads.set i rest⟩)
    (hn : nests[i]? = some n) (hi : i < s.threads.length) (hrest : rest ≠ n.waiting) :
    ¬ Deadlocked nests ⟨s', s.threads.set i rest⟩ := by
  rintro ⟨C, hC⟩
  refine hnot ⟨C, (Closed.step_iff (fun hmem => ?_) hstep).mp hC⟩
  rcases hC.waits i hmem with ⟨n', hn', hwait, -⟩
  rw [hn, Option.some.injEq] at hn'
  rw [List.getElem?_set, if_pos rfl, if_pos hi, Option.some.injEq] at hwait
  exact hrest (hn' ▸ hwait)

/-- Without a closed set, some thread can move so that there is none. -/
theorem progress (h : Nested nests s) (hnot : ¬ Deadlocked nests s) (reentrant : Bool)
    (hdone : ¬ ∀ ops ∈ s.threads, ops = []) :
    ∃ i op rest s', s.threads[i]? = some (op :: rest) ∧
      Threads.step (run reentrant) s i = some ⟨s', s.threads.set i rest⟩ ∧
      ¬ Deadlocked nests ⟨s', s.threads.set i rest⟩ := by
  by_cases hmove : ∃ (i : Nat) (op : Op κ β) (rest : List (Op κ β)),
      s.threads[i]? = some (op :: rest) ∧ ∀ m, op ≠ .acquire m
  -- Whoever is not about to take a lock may go first.
  · rcases hmove with ⟨i, op, rest, hth, hop⟩
    rcases exists_step h reentrant hth (fun m => .inl (hop m)) with ⟨s', hstep⟩
    rcases h.left i _ hth with ⟨n, hn, hat⟩
    refine ⟨i, op, rest, s', hth, hstep, not_deadlocked_of_step hnot hstep hn
      (List.getElem?_eq_some_iff.mp hth).1 ?_⟩
    rcases hat.cases_next with heq | heq | ⟨-, hrest⟩
    · exact absurd (List.cons_eq_cons.mp heq).1 (hop _)
    · exact absurd (List.cons_eq_cons.mp heq).1 (hop _)
    · exact hrest
  -- Everyone who has not ended is about to take the first lock or the second.
  · have hplace : ∀ (i : Nat) (ops : List (Op κ β)), s.threads[i]? = some ops → ops ≠ [] →
        ∃ n, nests[i]? = some n ∧ (ops = n.entering ∨ ops = n.waiting) := by
      intro i ops hth hne
      rcases h.left i ops hth with ⟨n, hn, hat⟩
      cases ops with
      | nil => exact absurd rfl hne
      | cons op rest =>
          refine ⟨n, hn, ?_⟩
          rcases hat.cases_next with heq | heq | ⟨hop, -⟩
          · exact .inl heq
          · exact .inr heq
          · exact absurd ⟨i, op, rest, hth, hop⟩ hmove
    have howner : ∀ m j c, s.shared.owner m = some (j, c) →
        ∃ n, nests[j]? = some n ∧ s.threads[j]? = some n.waiting := by
      intro m j c hm
      rcases h.owner_left hm with ⟨n, ops, hn, hth, hne, hent, -⟩
      rcases hplace j ops hth hne with ⟨n', hn', hops⟩
      rw [hn, Option.some.injEq] at hn'
      subst hn'
      exact ⟨n, hn, (hops.resolve_left hent) ▸ hth⟩
    by_cases hwait : ∃ (i : Nat) (n : Nest κ β), nests[i]? = some n ∧
        s.threads[i]? = some n.waiting
    -- Those that wait are not closed, so one of them finds its lock free.
    · have hfree : ∃ (i : Nat) (n : Nest κ β), nests[i]? = some n ∧ s.threads[i]? = some n.waiting ∧
          s.shared.owner n.inner = none := by
        by_contra hno
        let C : Set Nat := {i | ∃ n, nests[i]? = some n ∧ s.threads[i]? = some n.waiting}
        refine hnot ⟨C, hwait, fun i hi => ?_⟩
        rcases hi with ⟨n, hn, hth⟩
        refine ⟨n, hn, hth, ?_⟩
        cases hm : s.shared.owner n.inner with
        | none => exact absurd ⟨i, n, hn, hth, hm⟩ hno
        | some r => exact ⟨r.1, howner _ _ _ hm, r.2, rfl⟩
      rcases hfree with ⟨i, n, hn, hth, hm⟩
      have hop : ∀ m, Op.acquire n.inner ≠ Op.acquire (β := β) m ∨ s.shared.owner m = none := by
        intro m
        by_cases hm' : m = n.inner
        · exact .inr (hm' ▸ hm)
        · exact .inl (fun heq => hm' (Op.acquire.inj heq).symm)
      rcases exists_step h reentrant hth hop with ⟨s', hstep⟩
      refine ⟨i, _, _, s', hth, hstep, not_deadlocked_of_step hnot hstep hn
        (List.getElem?_eq_some_iff.mp hth).1 (fun heq => ?_)⟩
      cases heq
    -- No lock is taken, so whoever is left takes the first one.
    · have hnone : ∀ m, s.shared.owner m = none := by
        intro m
        cases hm : s.shared.owner m with
        | none => rfl
        | some r => exact absurd ⟨r.1, howner _ _ _ hm⟩ hwait
      have hleft : ∃ ops ∈ s.threads, ops ≠ [] := by
        by_contra hno
        exact hdone (fun ops hops => by_contra (fun hne => hno ⟨ops, hops, hne⟩))
      rcases hleft with ⟨ops, hops, hne⟩
      rcases List.mem_iff_getElem?.mp hops with ⟨i, hi⟩
      rcases hplace i ops hi hne with ⟨n, hn, rfl | rfl⟩
      · rcases exists_step h reentrant hi (fun m => .inr (hnone m)) with ⟨s', hstep⟩
        refine ⟨i, _, _, s', hi, hstep, ?_⟩
        rintro ⟨C, hC⟩
        by_cases hmem : i ∈ C
        · rcases hC.waits i hmem with ⟨n', hn', -, j, hj, c, hc⟩
          rw [hn, Option.some.injEq] at hn'
          subst hn'
          -- The thread waits for its second lock, which nobody has taken.
          rcases step_eq_some.mp hstep with ⟨ops, m, rest, hth, hm, heq⟩
          rw [hi, Option.some.injEq] at hth
          subst hth
          obtain rfl : s' = m := congrArg State.shared heq
          rcases run_cases hm with ⟨b, hb, -⟩ | ⟨k, hk, -, rfl⟩ | ⟨k, d, hk, -, -⟩
          · cases hb
          · cases hk
            change Function.update s.shared.owner n.outer _ n.inner = _ at hc
            rw [Function.update_of_ne n.outer_ne_inner.symm, hnone] at hc
            cases hc
          · cases hk
        · exact hnot ⟨C, (Closed.step_iff hmem hstep).mp hC⟩
      · exact absurd ⟨i, n, hn, hi⟩ hwait

/-- All threads can still end exactly if no threads wait for each other. -/
theorem completes_iff {reentrant : Bool}
    (h : (system (run reentrant) (start (nests.map Nest.program))).Reachable s) :
    (∃ steps t, (system (run reentrant) (start (nests.map Nest.program))).Run s steps t ∧
      ∀ ops ∈ t.threads, ops = []) ↔ ¬ Deadlocked nests s := by
  have hs := Nested.reachable h
  constructor
  · rintro ⟨steps, t, hrun, hdone⟩ ⟨C, hC⟩
    -- A closed set of threads stays closed, and none of them ends.
    have hlast : Nested nests t ∧ Closed nests t C := by
      clear hdone
      induction hrun with
      | nil => exact ⟨hs, hC⟩
      | snoc steps u i t _ hstep ih => exact ⟨ih.1.step hstep, ih.2.lasts ih.1 hstep⟩
    rcases hlast.2.nonempty with ⟨i, hi⟩
    rcases hlast.2.waits i hi with ⟨n, -, hwait, -⟩
    cases hdone _ (List.mem_of_getElem? hwait)
  · intro hnot
    refine System.finishes (fun s => Nested nests s ∧ ¬ Deadlocked nests s)
      (fun s => tally List.length s.threads) (fun s => ∀ ops ∈ s.threads, ops = [])
      (fun s hI hdone => ?_) ⟨hs, hnot⟩
    rcases progress hI.1 hI.2 reentrant hdone with ⟨i, op, rest, s', hth, hstep, hfree⟩
    have hset := tally_set List.length rest hth
    rw [List.length_cons] at hset
    refine ⟨i, _, hstep, ⟨hI.1.step hstep, hfree⟩, ?_⟩
    change tally List.length (s.threads.set i rest) < tally List.length s.threads
    omega

/-- Where no thread can move, all have ended, or some wait for each other. -/
theorem stuck_done {reentrant : Bool}
    (h : (system (run reentrant) (start (nests.map Nest.program))).Reachable s)
    (hstuck : Stuck (run reentrant) s) : (∀ ops ∈ s.threads, ops = []) ∨ Deadlocked nests s := by
  by_contra hno
  rw [not_or] at hno
  rcases progress (Nested.reachable h) hno.2 reentrant hno.1 with ⟨i, op, rest, s', -, hstep, -⟩
  rw [hstuck i] at hstep
  cases hstep

end Progress

/-! ### Rings -/

section Ring

variable {nests : List (Nest κ β)} {s : State (Locks κ β) (List (Op κ β))}

/-- Each thread takes inside its first lock the first one of the next thread,
    and the last thread that of the first. -/
def Ring (nests : List (Nest κ β)) : Prop :=
  ∀ (i j : Nat) (n n' : Nest κ β), nests[i]? = some n → nests[j]? = some n' →
    (n.inner = n'.outer ↔ j = (i + 1) % nests.length)

/-- In a ring, threads that wait for each other are all of them. -/
theorem Ring.deadlocked_iff (hring : Ring nests) (h : Nested nests s)
    (hlen : s.threads.length = nests.length) :
    Deadlocked nests s ↔ nests ≠ [] ∧ s.threads = nests.map Nest.waiting := by
  constructor
  · rintro ⟨C, hC⟩
    rcases hC.nonempty with ⟨i, hi⟩
    rcases hC.next h hi with ⟨n, hn, -⟩
    have hlt := (List.getElem?_eq_some_iff.mp hn).1
    -- With each thread the next one is in the set.
    have hall : ∀ k, (i + k) % nests.length ∈ C := by
      intro k
      induction k with
      | zero => rwa [Nat.add_zero, Nat.mod_eq_of_lt hlt]
      | succ k ih =>
          rcases hC.next h ih with ⟨n, hn, -, j, hj, n', hn', -, hlock⟩
          rw [(hring _ _ n n' hn hn').mp hlock, Nat.mod_add_mod] at hj
          exact hj
    refine ⟨List.ne_nil_of_length_pos (Nat.lt_of_le_of_lt (Nat.zero_le i) hlt), ?_⟩
    refine List.ext_getElem? (fun j => ?_)
    rw [List.getElem?_map]
    by_cases hj : j < nests.length
    · have hmem := hall (nests.length - i + j)
      rw [show i + (nests.length - i + j) = j + nests.length by omega, Nat.add_mod_right,
        Nat.mod_eq_of_lt hj] at hmem
      rcases hC.next h hmem with ⟨m, hm, hth, -⟩
      rw [hm]
      exact hth
    · rw [List.getElem?_eq_none (by omega), List.getElem?_eq_none (by omega)]
      rfl
  · rintro ⟨hne, hall⟩
    have hwait : ∀ {i : Nat} {n : Nest κ β}, nests[i]? = some n →
        s.threads[i]? = some n.waiting := by
      intro i n hn
      rw [hall, List.getElem?_map, hn]
      rfl
    have hpos := List.length_pos_of_ne_nil hne
    refine ⟨{i | i < nests.length}, ⟨0, hpos⟩, fun i hi => ?_⟩
    have hnext := Nat.mod_lt (i + 1) hpos
    have hn := List.getElem?_eq_getElem (l := nests) hi
    have hn' := List.getElem?_eq_getElem hnext
    rcases h.owner_of_waiting (hwait hn') with ⟨c, hc⟩
    refine ⟨nests[i], hn, hwait hn, _, hnext, c, ?_⟩
    rw [(hring _ _ _ _ hn hn').mpr rfl]
    exact hc

end Ring

end LockOrder

end BlogSample
