import BlogSample.Theory.Threads
import Mathlib.Data.List.Count
import Mathlib.Logic.Function.Basic

/-!
# Locks and the Order They Are Taken in

Threads that are straight lines of instructions: take a lock, release it, write
something out. A lock belongs to one thread at a time, and a reentrant one may
be taken again by the thread it belongs to. A thread that releases a lock which
is not its own has no step, so a claim that no thread gets stuck says that this
never happens.

`Disciplined` is what is asked of a program: it releases what it has taken, and
it takes a lock only with permission from each lock it has. The permission is a
parameter. With none asked for, the invariant says who has which lock in terms
of what a thread still has to do (`Sound`), and threads that are stuck are each
waiting for a lock of another one that is stuck (`blocked`). Where permission
goes upwards in an order of the locks, the thread that waits for the highest
lock would have to wait for a higher one, so no thread gets stuck
(`ordered_done`).

## Main definitions

* `Op`: An instruction.
* `Locks`: Who has which lock, and the output.
* `run`: What a thread does.
* `heldBy`: How often a thread has a lock.
* `Disciplined`: What is asked of a program.
* `Sound`: Who has which lock.
* `emits`: What a program still has to write.

## Theorems

* `run_cases`: What a step does.
* `Sound.reachable`: The invariant.
* `blocked`: Threads that are stuck wait for each other.
* `ordered_done`: Locks that are taken in order are all released in the end.
* `output_count`: Nothing is written twice or not at all.
* `run_length`: How long a run is.
-/

namespace BlogSample

namespace LockOrder

open Transition Threads

universe u v

/-- An instruction of a thread. -/
inductive Op (κ : Type u) (β : Type v)
  | acquire (m : κ)
  | release (m : κ)
  | emit (b : β)
  deriving DecidableEq

/-- The thread that has a lock, and how often; and what has been written out. -/
structure Locks (κ : Type u) (β : Type v) where
  owner : κ → Option (Nat × Nat)
  output : List β

variable {κ : Type u} {β : Type v} [DecidableEq κ]

/-- What a thread does, from the instructions it has left. -/
def run (reentrant : Bool) : Program (Locks κ β) (List (Op κ β)) := fun i s ops =>
  match ops with
  | [] => none
  | .emit b :: rest => some (⟨s.owner, s.output ++ [b]⟩, rest)
  | .acquire m :: rest =>
      match s.owner m with
      | none => some (⟨Function.update s.owner m (some (i, 1)), s.output⟩, rest)
      | some (j, c) =>
          if j = i ∧ reentrant = true then
            some (⟨Function.update s.owner m (some (i, c + 1)), s.output⟩, rest)
          else none
  | .release m :: rest =>
      match s.owner m with
      | none => none
      | some (j, c) =>
          if j = i then
            some (⟨Function.update s.owner m (if c = 1 then none else some (i, c - 1)),
              s.output⟩, rest)
          else none

/-- Threads with programs, no lock taken. -/
def start (programs : List (List (Op κ β))) (s : State (Locks κ β) (List (Op κ β))) : Prop :=
  s = ⟨⟨fun _ => none, []⟩, programs⟩

/-- How often a thread has a lock. -/
def heldBy (owner : κ → Option (Nat × Nat)) (i : Nat) (m : κ) : Nat :=
  match owner m with
  | none => 0
  | some (j, c) => if j = i then c else 0

/-- A program that starts with some locks, releases them and all that it takes,
    and takes a lock only if each lock it has permits it. -/
def Disciplined (permits : κ → κ → Prop) : List κ → List (Op κ β) → Prop
  | held, [] => held = []
  | held, .emit _ :: rest => Disciplined permits held rest
  | held, .acquire m :: rest => (∀ k ∈ held, permits k m) ∧ Disciplined permits (m :: held) rest
  | held, .release m :: rest => m ∈ held ∧ Disciplined permits (held.erase m) rest

/-- A step writes, takes a lock that is free or the thread's own, or releases a
    lock of the thread. -/
theorem run_cases {reentrant : Bool} {i : Nat} {s s' : Locks κ β} {ops rest : List (Op κ β)}
    (h : run reentrant i s ops = some (s', rest)) :
    (∃ b, ops = .emit b :: rest ∧ s' = ⟨s.owner, s.output ++ [b]⟩) ∨
    (∃ m, ops = .acquire m :: rest ∧ (s.owner m = none ∨ ∃ c, s.owner m = some (i, c)) ∧
      s' = ⟨Function.update s.owner m (some (i, heldBy s.owner i m + 1)), s.output⟩) ∨
    ∃ m c, ops = .release m :: rest ∧ s.owner m = some (i, c) ∧
      s' = ⟨Function.update s.owner m (if c = 1 then none else some (i, c - 1)), s.output⟩ := by
  cases ops with
  | nil => cases h
  | cons op ops =>
      cases op with
      | emit b =>
          simp only [run, Option.some.injEq, Prod.mk.injEq] at h
          rcases h with ⟨rfl, rfl⟩
          exact .inl ⟨b, rfl, rfl⟩
      | acquire m =>
          refine .inr (.inl ⟨m, ?_⟩)
          unfold run at h
          cases hm : s.owner m with
          | none =>
              simp only [hm, Option.some.injEq, Prod.mk.injEq] at h
              rcases h with ⟨rfl, rfl⟩
              refine ⟨rfl, .inl rfl, ?_⟩
              rw [show heldBy s.owner i m = 0 by unfold heldBy; rw [hm]]
          | some r =>
              rcases r with ⟨j, c⟩
              simp only [hm] at h
              -- Only the owner may enter again, and only where that is allowed.
              by_cases hj : j = i ∧ reentrant = true
              · rw [if_pos hj, Option.some.injEq, Prod.mk.injEq] at h
                rcases h with ⟨rfl, rfl⟩
                refine ⟨rfl, .inr ⟨c, by rw [hj.1]⟩, ?_⟩
                rw [show heldBy s.owner i m = c by unfold heldBy; rw [hm]; exact if_pos hj.1]
              · rw [if_neg hj] at h
                cases h
      | release m =>
          unfold run at h
          cases hm : s.owner m with
          | none =>
              simp only [hm] at h
              cases h
          | some r =>
              rcases r with ⟨j, c⟩
              simp only [hm] at h
              -- Only the owner can leave.
              by_cases hj : j = i
              · rw [if_pos hj, Option.some.injEq, Prod.mk.injEq] at h
                rcases h with ⟨rfl, rfl⟩
                exact .inr (.inr ⟨m, c, rfl, hj ▸ hm, rfl⟩)
              · rw [if_neg hj] at h
                cases h

/-- A step is one instruction. -/
theorem run_tail {reentrant : Bool} {i : Nat} {s s' : Locks κ β} {ops rest : List (Op κ β)}
    (h : run reentrant i s ops = some (s', rest)) : ∃ op, ops = op :: rest := by
  rcases run_cases h with ⟨b, rfl, -⟩ | ⟨m, rfl, -, -⟩ | ⟨m, c, rfl, -, -⟩
  · exact ⟨.emit b, rfl⟩
  · exact ⟨.acquire m, rfl⟩
  · exact ⟨.release m, rfl⟩

/-- Who has which lock: each lock that is taken belongs to one of the threads,
    and each thread has the locks that its program still has to release. -/
structure Sound (permits : κ → κ → Prop) (s : State (Locks κ β) (List (Op κ β))) : Prop where
  owned : ∀ m j c, s.shared.owner m = some (j, c) → 1 ≤ c ∧ j < s.threads.length
  held : ∀ i ops, s.threads[i]? = some ops → ∃ held, Disciplined permits held ops ∧
    ∀ m, held.count m = heldBy s.shared.owner i m

theorem heldBy_update (owner : κ → Option (Nat × Nat)) (k m : κ) (r : Option (Nat × Nat))
    (i : Nat) : heldBy (Function.update owner k r) i m =
      if m = k then (match r with
        | none => 0
        | some (j, c) => if j = i then c else 0) else heldBy owner i m := by
  unfold heldBy
  by_cases hm : m = k
  · rw [if_pos hm, hm, Function.update_self]
  · rw [if_neg hm, Function.update_of_ne hm]

omit [DecidableEq κ] in
/-- A lock that is free, or belongs to a thread, is not another thread's. -/
theorem heldBy_other {owner : κ → Option (Nat × Nat)} {m : κ} {i j : Nat} (hij : j ≠ i)
    (h : owner m = none ∨ ∃ c, owner m = some (i, c)) : heldBy owner j m = 0 := by
  unfold heldBy
  rcases h with h | ⟨c, h⟩
  · rw [h]
  · rw [h]
    exact if_neg (Ne.symm hij)

namespace Sound

variable {permits : κ → κ → Prop} {s : State (Locks κ β) (List (Op κ β))}

theorem of_start {programs : List (List (Op κ β))}
    (hprograms : ∀ ops ∈ programs, Disciplined permits [] ops) :
    Sound permits ⟨⟨fun _ => none, []⟩, programs⟩ where
  owned := fun m j c h => by cases h
  held := fun i ops h => ⟨[], hprograms ops (List.mem_of_getElem? h), fun m => rfl⟩

/-- A step that changes who has one lock, for the thread that takes the step
    and for no other. -/
theorem change (h : Sound permits s) {i : Nat} {op : Op κ β} {rest : List (Op κ β)}
    (hth : s.threads[i]? = some (op :: rest)) {m : κ} {r : Option (Nat × Nat)}
    (output : List β) (hfree : s.shared.owner m = none ∨ ∃ c, s.shared.owner m = some (i, c))
    (hr : ∀ j c, r = some (j, c) → j = i ∧ 1 ≤ c)
    (hown : ∃ held, Disciplined permits held rest ∧
      ∀ k, held.count k = heldBy (Function.update s.shared.owner m r) i k) :
    Sound permits ⟨⟨Function.update s.shared.owner m r, output⟩, s.threads.set i rest⟩ where
  owned := fun k j c (hk : Function.update s.shared.owner m r k = some (j, c)) => by
    rw [List.length_set]
    by_cases hkm : k = m
    · rw [hkm, Function.update_self] at hk
      rcases hr j c hk with ⟨rfl, hc⟩
      exact ⟨hc, (List.getElem?_eq_some_iff.mp hth).1⟩
    · rw [Function.update_of_ne hkm] at hk
      exact h.owned k j c hk
  held := by
    refine forall_set hown (fun j ops hj hops => ?_)
    rcases h.held j ops hops with ⟨held, hdisc, hcount⟩
    refine ⟨held, hdisc, fun k => ?_⟩
    change held.count k = heldBy (Function.update s.shared.owner m r) j k
    rw [hcount k, heldBy_update]
    by_cases hkm : k = m
    -- The lock that changes was not the other thread's, and is not now.
    · rw [if_pos hkm, hkm, heldBy_other hj hfree]
      cases r with
      | none => rfl
      | some r => exact (if_neg (fun hji => hj (hji.symm.trans (hr r.1 r.2 rfl).1))).symm
    · rw [if_neg hkm]

theorem step (h : Sound permits s) {reentrant : Bool} {i : Nat}
    {t : State (Locks κ β) (List (Op κ β))} (hstep : Threads.step (run reentrant) s i = some t) :
    Sound permits t := by
  rcases step_eq_some.mp hstep with ⟨ops, s', rest, hth, hm, rfl⟩
  rcases run_cases hm with ⟨b, rfl, rfl⟩ | ⟨m, rfl, hfree, rfl⟩ | ⟨m, c, rfl, hc, rfl⟩
  · rcases h.held i _ hth with ⟨held, hdisc, hcount⟩
    refine ⟨fun m j c hm => ?_,
      forall_set ⟨held, hdisc, hcount⟩ (fun j ops _ hops => h.held j ops hops)⟩
    rw [List.length_set]
    exact h.owned m j c hm
  · rcases h.held i _ hth with ⟨held, hdisc, hcount⟩
    -- The thread holds the lock once more than before.
    refine h.change hth _ hfree ?_ ⟨m :: held, hdisc.2, fun k => ?_⟩
    · rintro j c hjc
      cases hjc
      exact ⟨rfl, Nat.le_add_left 1 _⟩
    · rw [heldBy_update]
      by_cases hkm : k = m
      · rw [if_pos hkm, hkm, List.count_cons_self, hcount m]
        exact (if_pos rfl).symm
      · rw [if_neg hkm, List.count_cons_of_ne (Ne.symm hkm), hcount k]
  · rcases h.held i _ hth with ⟨held, hdisc, hcount⟩
    have hheld : heldBy s.shared.owner i m = c := by
      unfold heldBy
      rw [hc]
      exact if_pos rfl
    -- The thread holds it once less, and not at all if it was the last time.
    refine h.change hth _ (.inr ⟨c, hc⟩) ?_ ⟨held.erase m, hdisc.2, fun k => ?_⟩
    · intro j d hjd
      by_cases hone : c = 1
      · rw [if_pos hone] at hjd
        cases hjd
      · rw [if_neg hone] at hjd
        cases hjd
        have hpos := (h.owned m i c hc).1
        exact ⟨rfl, by omega⟩
    · rw [heldBy_update, List.count_erase, hcount k]
      by_cases hkm : k = m
      · rw [if_pos hkm, hkm, hheld, if_pos (beq_self_eq_true m)]
        by_cases hone : c = 1
        · rw [if_pos hone, hone]
        · rw [if_neg hone]
          exact (if_pos rfl).symm
      · rw [if_neg hkm, if_neg (by simpa using Ne.symm hkm), Nat.sub_zero]

theorem reachable {reentrant : Bool} {programs : List (List (Op κ β))}
    (hprograms : ∀ ops ∈ programs, Disciplined permits [] ops)
    (h : (system (run reentrant) (start programs)).Reachable s) : Sound permits s :=
  System.Reachable.invariant (Sound permits)
    (fun s (hs : start programs s) => by rw [hs]; exact of_start hprograms)
    (fun _ _ _ hs hst => hs.step hst) h

/-- Who has a lock still has to release it. -/
theorem owner_unfinished (h : Sound permits s) {m : κ} {j c : Nat}
    (hm : s.shared.owner m = some (j, c)) :
    ∃ ops held, s.threads[j]? = some ops ∧ ops ≠ [] ∧ Disciplined permits held ops ∧ m ∈ held ∧
      ∀ k, held.count k = heldBy s.shared.owner j k := by
  rcases h.owned m j c hm with ⟨hc, hj⟩
  rcases h.held j _ (List.getElem?_eq_getElem hj) with ⟨held, hdisc, hcount⟩
  have hmem : m ∈ held := by
    rw [← List.count_pos_iff, hcount m]
    unfold heldBy
    rw [hm]
    exact Nat.lt_of_lt_of_eq hc (if_pos rfl).symm
  refine ⟨_, held, List.getElem?_eq_getElem hj, fun hnil => ?_, hdisc, hmem, hcount⟩
  rw [hnil] at hdisc
  rw [show held = [] from hdisc] at hmem
  cases hmem

/-- A thread that is stuck before its end waits for a lock of another one that
    is stuck before its end, or for one of its own that it may not take again. -/
theorem blocked (h : Sound permits s) {reentrant : Bool} (hstuck : Stuck (run reentrant) s)
    {i : Nat} {ops : List (Op κ β)} (hth : s.threads[i]? = some ops) (hne : ops ≠ []) :
    ∃ m rest j c, ops = .acquire m :: rest ∧ s.shared.owner m = some (j, c) ∧
      (j = i → reentrant = false) := by
  have hno := stuck_iff.mp hstuck i ops hth
  cases ops with
  | nil => exact absurd rfl hne
  | cons op rest =>
      cases op with
      | emit b => cases hno
      | acquire m =>
          unfold run at hno
          cases hm : s.shared.owner m with
          | none =>
              simp only [hm] at hno
              cases hno
          | some r =>
              rcases r with ⟨j, c⟩
              refine ⟨m, rest, j, c, rfl, hm, fun hji => ?_⟩
              simp only [hm, hji, true_and] at hno
              cases reentrant with
              | false => rfl
              | true =>
                  rw [if_pos rfl] at hno
                  cases hno
      | release m =>
          -- The lock is the thread's own, so it could be released.
          rcases h.held i _ hth with ⟨held, ⟨hmem, -⟩, hcount⟩
          have hpos : 0 < heldBy s.shared.owner i m := by
            rw [← hcount m]
            exact List.count_pos_iff.mpr hmem
          unfold run at hno
          unfold heldBy at hpos
          cases hm : s.shared.owner m with
          | none =>
              simp only [hm] at hpos
              cases hpos
          | some r =>
              rcases r with ⟨j, c⟩
              simp only [hm] at hpos hno
              by_cases hj : j = i
              · rw [if_pos hj] at hno
                cases hno
              · rw [if_neg hj] at hpos
                cases hpos

end Sound

/-- The rank of the lock that a thread is about to take. -/
def nextRank (rank : κ → Nat) : List (Op κ β) → Nat
  | .acquire m :: _ => rank m
  | _ => 0

/-- Locks that are taken in an order, each only above those that the thread
    has: where no thread can move, all have ended, and no lock is taken. -/
theorem ordered_done {reentrant : Bool} {permits : κ → κ → Prop} (rank : κ → Nat)
    (hpermits : ∀ k m, permits k m → rank k < rank m ∨ (reentrant = true ∧ k = m))
    {programs : List (List (Op κ β))} (hprograms : ∀ ops ∈ programs, Disciplined permits [] ops)
    {s : State (Locks κ β) (List (Op κ β))}
    (h : (system (run reentrant) (start programs)).Reachable s) (hstuck : Stuck (run reentrant) s) :
    (∀ ops ∈ s.threads, ops = []) ∧ ∀ m, s.shared.owner m = none := by
  have hsound := Sound.reachable hprograms h
  -- If a thread is left, one waits for a lock above any bound.
  have hclimb : ∀ n : Nat, ∀ (i : Nat) (ops : List (Op κ β)), s.threads[i]? = some ops →
      ops ≠ [] → ∃ (j : Nat) (m : κ) (rest : List (Op κ β)),
        s.threads[j]? = some (.acquire m :: rest) ∧ n ≤ rank m := by
    intro n i ops hth hne
    induction n with
    | zero =>
        rcases hsound.blocked hstuck hth hne with ⟨m, rest, j, c, rfl, -, -⟩
        exact ⟨i, m, rest, hth, Nat.zero_le _⟩
    | succ n ih =>
        rcases ih with ⟨i, m, rest, hth, hn⟩
        rcases hsound.blocked hstuck hth (List.cons_ne_nil _ _) with ⟨m, rest, j, c, heq, hm, -⟩
        cases heq
        rcases hsound.owner_unfinished hm with ⟨ops, held, hth', hne', hdisc, hmem, -⟩
        rcases hsound.blocked hstuck hth' hne' with ⟨m', rest', j', c', rfl, hm', hown⟩
        refine ⟨j, m', rest', hth', ?_⟩
        rcases hpermits m m' (hdisc.1 m hmem) with hlt | ⟨hre, rfl⟩
        · exact Nat.le_trans (Nat.succ_le_succ hn) hlt
        -- A reentrant lock of its own would not make the thread wait.
        · rw [hm, Option.some.injEq, Prod.mk.injEq] at hm'
          rw [hown hm'.1.symm] at hre
          cases hre
  have hdone : ∀ ops ∈ s.threads, ops = [] := by
    intro ops hops
    by_contra hne
    rcases List.mem_iff_getElem?.mp hops with ⟨i, hi⟩
    rcases hclimb (tally (nextRank rank) s.threads + 1) i ops hi hne with ⟨j, m, rest, hj, hle⟩
    have hcell := le_tally (nextRank rank) (List.mem_of_getElem? hj)
    rw [show nextRank rank (.acquire m :: rest) = rank m from rfl] at hcell
    omega
  refine ⟨hdone, fun m => ?_⟩
  cases hm : s.shared.owner m with
  | none => rfl
  | some r =>
      rcases hsound.owner_unfinished hm with ⟨ops, held, hth, hne, -⟩
      exact absurd (hdone ops (List.mem_of_getElem? hth)) hne

/-- What is left to be written. -/
def emits : List (Op κ β) → List β
  | [] => []
  | .emit b :: rest => b :: emits rest
  | .acquire _ :: rest => emits rest
  | .release _ :: rest => emits rest

/-- What has been written and what is left to be written is what the programs
    write. -/
theorem output_count [BEq β] {reentrant : Bool} {programs : List (List (Op κ β))}
    {s : State (Locks κ β) (List (Op κ β))}
    (h : (system (run reentrant) (start programs)).Reachable s) (b : β) :
    s.shared.output.count b + tally (fun ops => (emits ops).count b) s.threads =
      tally (fun ops => (emits ops).count b) programs := by
  refine h.invariant (fun s => s.shared.output.count b +
    tally (fun ops => (emits ops).count b) s.threads =
      tally (fun ops => (emits ops).count b) programs)
    (fun s (hs : start programs s) => ?_) (fun s i t hs (hstep : Threads.step _ s i = some t) => ?_)
  · rw [hs]
    exact Nat.zero_add _
  · rcases step_eq_some.mp hstep with ⟨ops, s', rest, hth, hm, rfl⟩
    have hset := tally_set (fun ops => (emits ops).count b) rest hth
    -- Only `emit` takes a line out of the program, and puts it in the output.
    rcases run_cases hm with ⟨c, rfl, rfl⟩ | ⟨m, rfl, -, rfl⟩ | ⟨m, c, rfl, -, rfl⟩
    · change (s.shared.output ++ [c]).count b + tally _ (s.threads.set i rest) = _
      have hemits : emits (.emit c :: rest) = [c] ++ emits (κ := κ) rest := rfl
      rw [hemits, List.count_append] at hset
      rw [List.count_append]
      omega
    · change s.shared.output.count b + tally _ (s.threads.set i rest) = _
      have hemits : emits (.acquire m :: rest) = emits rest := rfl
      rw [hemits] at hset
      omega
    · change s.shared.output.count b + tally _ (s.threads.set i rest) = _
      have hemits : emits (.release m :: rest) = emits rest := rfl
      rw [hemits] at hset
      omega

/-- Where all have ended, everything has been written. -/
theorem output_count_done [BEq β] {reentrant : Bool} {programs : List (List (Op κ β))}
    {s : State (Locks κ β) (List (Op κ β))}
    (h : (system (run reentrant) (start programs)).Reachable s)
    (hdone : ∀ ops ∈ s.threads, ops = []) (b : β) :
    s.shared.output.count b = tally (fun ops => (emits ops).count b) programs := by
  have hzero : tally (fun ops => (emits ops).count b) s.threads = 0 :=
    tally_eq_zero (fun ops hops => by rw [hdone ops hops]; rfl)
  have hcount := output_count h b
  omega

/-- Each step is one instruction. -/
theorem run_length {reentrant : Bool} {programs : List (List (Op κ β))}
    {s₀ s : State (Locks κ β) (List (Op κ β))} (hinit : start programs s₀)
    {steps : List (State (Locks κ β) (List (Op κ β)) × Nat)}
    (h : (system (run reentrant) (start programs)).Run s₀ steps s) :
    tally List.length s.threads + steps.length ≤ tally List.length programs := by
  have hle := run_length_le (fun s => tally List.length s.threads) (fun s i t _ hstep => ?_) hinit h
  · rwa [show s₀ = _ from hinit] at hle
  · rcases step_eq_some.mp hstep with ⟨ops, s', rest, hth, hm, rfl⟩
    rcases run_tail hm with ⟨op, rfl⟩
    have hset := tally_set List.length rest hth
    rw [List.length_cons] at hset
    change tally List.length (s.threads.set i rest) < tally List.length s.threads
    omega

end LockOrder

end BlogSample
