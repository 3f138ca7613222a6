import BlogSample.Theory.LockOrder
import Mathlib.Tactic.IntervalCases

/-!
# Entering a Monitor Twice

`TryLockDemo` enters a monitor, enters it again inside, and leaves it twice,
with a line after each call. `Main` runs it in two tasks; here it is any
number of them, by the ids of their threads. The time in each line is left
out.

The monitor belongs to one thread at a time and is free only when it has been
left as often as entered. So no task gets stuck, none leaves a monitor that is
not its own, and the three lines that a task writes while it has the monitor
stand together. The first line of a task comes before it has the monitor, and
the one about leaving it for the last time after that. These two may stand
anywhere between the lines of the others.

## Main definitions

* `tryLockDemo`: What one task does.
* `lines`, `held`: The lines that a task writes, and those of them that it writes
  while it has the monitor.
* `pending`: Those that it still has to write.
* `Ordered`: The invariant.

## Theorems

* `ordered_step`: The invariant is kept.
* `sections_whole`: The lines stand together, and all tasks end.
-/

namespace BlogSample

namespace DeepKnowLock

open Transition Threads LockOrder

/-- A line, with the id of the thread in front of it. -/
abbrev Line : Type := Nat × String

/-- `TryLockDemo`, in the thread with the id. -/
def tryLockDemo (threadId : Nat) : List (Op Unit Line) :=
  [.emit (threadId, "TryLockDemo Start"),
    .acquire (),
    .emit (threadId, "get first lock"),
    .acquire (),
    .emit (threadId, "get second lock"),
    .release (),
    .emit (threadId, "release second lock"),
    .release (),
    .emit (threadId, "release first lock")]

/-- The tasks, by the ids of their threads. -/
def tasks (ids : List Nat) : System (State (Locks Unit Line) (List (Op Unit Line))) Nat :=
  system (run true) (start (ids.map tryLockDemo))

/-- All lines that a task writes. -/
def lines (threadId : Nat) : List Line := emits (tryLockDemo threadId)

/-- A line is one that is written with the monitor. -/
def isHeld (l : Line) : Bool :=
  l.2 == "get first lock" || l.2 == "get second lock" || l.2 == "release second lock"

/-- The lines that a task writes while it has the monitor. -/
def held (threadId : Nat) : List Line :=
  [(threadId, "get first lock"), (threadId, "get second lock"), (threadId, "release second lock")]

/-- The lines that are still to be written with the monitor. -/
def pending (ops : List (Op Unit Line)) : List Line :=
  (emits ops).filter isHeld

/-- A monitor may be entered again. -/
def again (k m : Unit) : Prop := k = m

theorem disciplined_tryLockDemo (threadId : Nat) : Disciplined again [] (tryLockDemo threadId) := by
  refine ⟨fun k hk => absurd hk List.not_mem_nil, fun k _ => rfl, ?_, ?_, rfl⟩
  · exact List.mem_cons_self
  · exact List.mem_cons_self

/-- How often the monitor is entered. -/
def enters : List (Op Unit Line) → Nat
  | [] => 0
  | .emit _ :: rest => enters rest
  | .acquire _ :: rest => enters rest + 1
  | .release _ :: rest => enters rest

/-- How often it is left. -/
def exits : List (Op Unit Line) → Nat
  | [] => 0
  | .emit _ :: rest => exits rest
  | .acquire _ :: rest => exits rest
  | .release _ :: rest => exits rest + 1

/-- What a task has entered, and will enter, it will leave. -/
theorem length_of_disciplined {ops : List (Op Unit Line)} : ∀ {owned : List Unit},
    Disciplined again owned ops → owned.length + enters ops = exits ops := by
  induction ops with
  | nil =>
      intro owned h
      rw [show owned = [] from h]
      rfl
  | cons op ops ih =>
      intro owned h
      cases op with
      | emit l => exact ih h
      | acquire m =>
          have hrest := ih h.2
          rw [List.length_cons] at hrest
          rw [enters, exits]
          omega
      | release m =>
          have hrest := ih h.2
          have hlen := List.length_erase_of_mem h.1
          have hpos := List.length_pos_of_mem h.1
          rw [enters, exits]
          omega

/-- Where a task is. -/
def At (threadId : Nat) (ops : List (Op Unit Line)) : Prop :=
  ∃ k, k ≤ 9 ∧ ops = (tryLockDemo threadId).drop k

/-- The next instruction of a task: what it writes with the monitor it writes
    while it has it, what it takes first it takes with all its lines to write,
    and what it leaves last it leaves without any. -/
theorem At.next {threadId : Nat} {op : Op Unit Line} {rest : List (Op Unit Line)}
    (h : At threadId (op :: rest)) :
    At threadId rest ∧
      (∀ l, op = .emit l → isHeld l = true → enters (op :: rest) < exits (op :: rest)) ∧
      (op = .acquire () → enters (op :: rest) = exits (op :: rest) →
        pending rest = held threadId) ∧
      (op = .release () → enters (op :: rest) + 1 = exits (op :: rest) → pending rest = []) := by
  rcases h with ⟨k, hk, heq⟩
  have hlt : k < 9 := by
    by_contra hge
    rw [show k = 9 by omega] at heq
    cases heq
  have hrest : rest = (tryLockDemo threadId).drop (k + 1) := by
    rw [← List.tail_drop, ← heq, List.tail_cons]
  refine ⟨⟨k + 1, hlt, hrest⟩, ?_⟩
  interval_cases k <;> cases heq <;>
    simp [enters, exits, pending, emits, held, isHeld]

/-- The lines that whoever has the monitor still has to write with it. -/
def unwritten (s : State (Locks Unit Line) (List (Op Unit Line))) : List Line :=
  match s.shared.owner () with
  | none => []
  | some (i, _) => pending ((s.threads[i]?).getD [])

/-- The lines written with the monitor, and those that its owner still has to
    write, are those of whole tasks one after the other. -/
structure Ordered (ids : List Nat) (s : State (Locks Unit Line) (List (Op Unit Line))) :
    Prop where
  sound : Sound again s
  task : ∀ (i : Nat) (ops : List (Op Unit Line)), s.threads[i]? = some ops → ∃ id, At id ops
  whole : ∃ order : List Nat, s.shared.output.filter isHeld ++ unwritten s = order.flatMap held

theorem ordered_initial (ids : List Nat) :
    Ordered ids ⟨⟨fun _ => none, []⟩, ids.map tryLockDemo⟩ where
  sound := Sound.of_start (fun ops hops => by
    rcases List.mem_map.mp hops with ⟨id, -, rfl⟩
    exact disciplined_tryLockDemo id)
  task := fun i ops hops => by
    rcases List.mem_map.mp (List.mem_of_getElem? hops) with ⟨id, -, rfl⟩
    exact ⟨id, 0, Nat.zero_le 9, rfl⟩
  whole := ⟨[], rfl⟩

/-- How often the thread has the monitor is what it has to leave more often
    than to enter. -/
theorem Ordered.heldBy_eq {ids : List Nat} {s : State (Locks Unit Line) (List (Op Unit Line))}
    (h : Ordered ids s) {i : Nat} {ops : List (Op Unit Line)} (hth : s.threads[i]? = some ops) :
    heldBy s.shared.owner i () + enters ops = exits ops := by
  rcases h.sound.held i ops hth with ⟨owned, hdisc, hcount⟩
  have hlen : owned.count () = owned.length := List.count_eq_length.mpr (fun _ _ => rfl)
  rw [← hcount (), hlen]
  exact length_of_disciplined hdisc

/-- Whoever has the monitor has it until it leaves it. -/
theorem unwritten_of_owner {s : State (Locks Unit Line) (List (Op Unit Line))} {i c : Nat}
    {ops : List (Op Unit Line)} (hown : s.shared.owner () = some (i, c))
    (hth : s.threads[i]? = some ops) : unwritten s = pending ops := by
  unfold unwritten
  rw [hown]
  simp only [hth, Option.getD_some]

/-- A step that writes none of these lines, and changes nothing about the
    monitor. -/
theorem unwritten_set {s : State (Locks Unit Line) (List (Op Unit Line))} {i : Nat}
    {ops rest : List (Op Unit Line)} (hth : s.threads[i]? = some ops)
    (h : pending rest = pending ops) (output : List Line) :
    unwritten ⟨⟨s.shared.owner, output⟩, s.threads.set i rest⟩ = unwritten s := by
  unfold unwritten
  cases s.shared.owner () with
  | none => rfl
  | some r =>
      rcases r with ⟨j, c⟩
      simp only
      by_cases hji : j = i
      · rw [hji, List.getElem?_set_self (List.getElem?_eq_some_iff.mp hth).1, hth]
        exact h
      · rw [List.getElem?_set_ne (Ne.symm hji)]

theorem ordered_step {ids : List Nat} {s t : State (Locks Unit Line) (List (Op Unit Line))}
    (h : Ordered ids s) {i : Nat} (hstep : Threads.step (run true) s i = some t) :
    Ordered ids t := by
  have hsound := h.sound.step hstep
  rcases step_eq_some.mp hstep with ⟨ops, s', rest, hth, hm, rfl⟩
  rcases run_tail hm with ⟨op, rfl⟩
  rcases h.task i _ hth with ⟨id, hat⟩
  rcases hat.next with ⟨hrest, hwrite, henter, hleave⟩
  have hheld := h.heldBy_eq hth
  have hlt := (List.getElem?_eq_some_iff.mp hth).1
  have hself : (s.threads.set i rest)[i]? = some rest := List.getElem?_set_self hlt
  refine ⟨hsound, forall_set ⟨id, hrest⟩ (fun j ops _ hops => h.task j ops hops), ?_⟩
  rcases h.whole with ⟨order, hwhole⟩
  -- It writes a line, enters the monitor, or leaves it.
  rcases run_cases hm with ⟨l, heq, rfl⟩ | ⟨m, heq, hfree, rfl⟩ | ⟨m, c, heq, hc, rfl⟩
  · cases heq
    by_cases hl : isHeld l = true
    -- The task has the monitor, so the line was the next one to be written.
    · have hlt := hwrite l rfl hl
      have hown : ∃ c, s.shared.owner () = some (i, c) := by
        unfold heldBy at hheld
        cases hm : s.shared.owner () with
        | none =>
            simp only [hm] at hheld
            omega
        | some r =>
            rcases r with ⟨j, c⟩
            simp only [hm] at hheld
            by_cases hj : j = i
            · exact ⟨c, by rw [hj]⟩
            · rw [if_neg hj] at hheld
              omega
      rcases hown with ⟨c, hc⟩
      refine ⟨order, ?_⟩
      rw [unwritten_of_owner (s := ⟨⟨s.shared.owner, s.shared.output ++ [l]⟩, _⟩) hc hself,
        ← hwhole, unwritten_of_owner hc hth]
      change (s.shared.output ++ [l]).filter isHeld ++ _ = _
      rw [List.filter_append, List.filter_cons_of_pos hl, List.filter_nil, List.append_assoc]
      refine congrArg _ ?_
      unfold pending
      rw [emits, List.filter_cons_of_pos hl]
      rfl
    -- A line written without the monitor is in no section.
    · refine ⟨order, ?_⟩
      rw [unwritten_set hth (by unfold pending; rw [emits, List.filter_cons_of_neg hl]), ← hwhole]
      change (s.shared.output ++ [l]).filter isHeld ++ _ = _
      rw [List.filter_append, List.filter_cons_of_neg hl, List.filter_nil, List.append_nil]
  · cases heq
    rcases hfree with hnone | ⟨c, hc⟩
    -- The lines of one more task are to be written.
    · have hzero : heldBy s.shared.owner i () = 0 := by
        unfold heldBy
        rw [hnone]
      rw [hzero, Nat.zero_add] at hheld
      refine ⟨order ++ [id], ?_⟩
      rw [unwritten_of_owner (c := heldBy s.shared.owner i () + 1) rfl hself, henter rfl hheld,
        List.flatMap_append, ← hwhole]
      unfold unwritten
      rw [hnone, List.append_nil]
      exact congrArg _ (List.append_nil (held id)).symm
    -- The task has the monitor already: the section goes on.
    · refine ⟨order, ?_⟩
      rw [unwritten_of_owner (c := heldBy s.shared.owner i () + 1) rfl hself, ← hwhole,
        unwritten_of_owner hc hth]
      rfl
  · cases heq
    refine ⟨order, ?_⟩
    have hc' : heldBy s.shared.owner i () = c := by
      unfold heldBy
      rw [hc]
      exact if_pos rfl
    rw [hc'] at hheld
    rw [← hwhole, unwritten_of_owner hc hth]
    refine congrArg _ ?_
    by_cases hone : c = 1
    -- The task leaves the monitor for the last time, with all its lines written.
    · have hnil : pending rest = [] := hleave rfl (by omega)
      have hrest : pending (.release () :: rest) = pending rest := rfl
      rw [hrest, hnil]
      unfold unwritten
      rw [if_pos hone]
      rfl
    -- Otherwise it only counts one less, and the section goes on.
    · rw [unwritten_of_owner (i := i) (c := c - 1) _ hself]
      · rfl
      · rw [if_neg hone]
        rfl

theorem reachable_ordered {ids : List Nat} {s : State (Locks Unit Line) (List (Op Unit Line))}
    (h : (tasks ids).Reachable s) : Ordered ids s :=
  h.invariant (Ordered ids)
    (fun s (hs : start (ids.map tryLockDemo) s) => by rw [hs]; exact ordered_initial ids)
    (fun _ _ _ hs hst => ordered_step hs hst)

theorem At.pending_suffix {id : Nat} {ops : List (Op Unit Line)} (h : At id ops) :
    pending ops <:+ held id := by
  rcases h with ⟨k, hk, rfl⟩
  have hall : ∀ k ≤ 9, ∃ n, pending ((tryLockDemo id).drop k) = (held id).drop n := by
    intro k hk
    interval_cases k
    · exact ⟨0, rfl⟩
    · exact ⟨0, rfl⟩
    · exact ⟨0, rfl⟩
    · exact ⟨1, rfl⟩
    · exact ⟨1, rfl⟩
    · exact ⟨2, rfl⟩
    · exact ⟨2, rfl⟩
    · exact ⟨3, rfl⟩
    · exact ⟨3, rfl⟩
    · exact ⟨3, rfl⟩
  rcases hall k hk with ⟨n, hn⟩
  rw [hn]
  exact List.drop_suffix n _

/-- The first line of a task with the monitor is written once for each time
    that the task is named. -/
theorem count_flatMap_held (a : Nat) (order : List Nat) :
    (order.flatMap held).count (a, "get first lock") = order.count a := by
  induction order with
  | nil => rfl
  | cons id order ih =>
      rw [List.flatMap_cons, List.count_append, ih, List.count_cons, Nat.add_comm]
      congr 1
      by_cases hid : id = a
      · subst hid
        simp [held]
      · simp [held, hid]

/-- All lines of the tasks. -/
theorem tally_tryLockDemo (l : Line) (ids : List Nat) :
    tally (fun ops => (emits ops).count l) (ids.map tryLockDemo) =
      (ids.flatMap lines).count l := by
  induction ids with
  | nil => rfl
  | cons id ids ih =>
      rw [List.map_cons, tally_cons, ih, List.flatMap_cons, List.count_append]
      rfl

/-- The first line with the monitor is one of the lines of a task. -/
theorem count_flatMap_lines (a : Nat) (ids : List Nat) :
    (ids.flatMap lines).count (a, "get first lock") = ids.count a := by
  induction ids with
  | nil => rfl
  | cons id ids ih =>
      rw [List.flatMap_cons, List.count_append, ih, List.count_cons, Nat.add_comm]
      congr 1
      by_cases hid : id = a
      · subst hid
        simp [lines, emits, tryLockDemo]
      · simp [lines, emits, tryLockDemo, hid]

/-- At any time the lines written with the monitor are those of whole tasks
    one after the other, but for the end of the last. Where no task can go on,
    all have ended, the monitor is free, and each has written all its lines, with
    and without the monitor; and no run is longer than that. -/
theorem sections_whole (ids : List Nat) :
    (∀ s, (tasks ids).Reachable s → ∃ (order : List Nat) (rest : List Line) (id : Nat),
      rest <:+ held id ∧ s.shared.output.filter isHeld ++ rest = order.flatMap held) ∧
    (∀ s, (tasks ids).Reachable s → Stuck (run true) s →
      (∀ ops ∈ s.threads, ops = []) ∧ s.shared.owner () = none ∧
      s.shared.output.Perm (ids.flatMap lines) ∧ ∃ order : List Nat,
        order.Perm ids ∧ s.shared.output.filter isHeld = order.flatMap held) ∧
    ∀ s₀ steps s, (tasks ids).init s₀ → (tasks ids).Run s₀ steps s →
      steps.length ≤ 9 * ids.length := by
  refine ⟨fun s hs => ?_, fun s hs hstuck => ?_, fun s₀ steps s hinit hrun => ?_⟩
  -- What is missing of the last section is what its owner has yet to write.
  · have hordered := reachable_ordered hs
    rcases hordered.whole with ⟨order, hwhole⟩
    have hrest : ∃ id, unwritten s <:+ held id := by
      unfold unwritten
      cases s.shared.owner () with
      | none => exact ⟨0, List.nil_suffix⟩
      | some r =>
          rcases r with ⟨i, c⟩
          simp only
          cases hth : s.threads[i]? with
          | none => exact ⟨0, List.nil_suffix⟩
          | some ops =>
              rcases hordered.task i ops hth with ⟨id, hat⟩
              exact ⟨id, hat.pending_suffix⟩
    rcases hrest with ⟨id, hsuffix⟩
    exact ⟨order, unwritten s, id, hsuffix, hwhole⟩
  -- All tasks leave what they enter, so they all end.
  · have hdisciplined : ∀ ops ∈ ids.map tryLockDemo, Disciplined again [] ops := fun ops hops => by
      rcases List.mem_map.mp hops with ⟨id, -, rfl⟩
      exact disciplined_tryLockDemo id
    rcases ordered_done (fun _ => 0) (fun k m hkm => .inr ⟨rfl, hkm⟩) hdisciplined hs hstuck
      with ⟨hdone, hfree⟩
    have hlines : s.shared.output.Perm (ids.flatMap lines) :=
      List.perm_iff_count.mpr (fun l => by rw [output_count_done hs hdone, tally_tryLockDemo])
    refine ⟨hdone, hfree (), hlines, ?_⟩
    rcases (reachable_ordered hs).whole with ⟨order, hwhole⟩
    unfold unwritten at hwhole
    rw [hfree (), List.append_nil] at hwhole
    -- Each section has one first line, so sections are counted by these.
    refine ⟨order, List.perm_iff_count.mpr (fun a => ?_), hwhole⟩
    calc order.count a = (s.shared.output.filter isHeld).count (a, "get first lock") := by
          rw [hwhole, count_flatMap_held]
      _ = s.shared.output.count (a, "get first lock") := List.count_filter rfl
      _ = ids.count a := by rw [hlines.count_eq, count_flatMap_lines]
  -- Each step is one of the operations that the tasks begin with.
  · have hlen := run_length hinit hrun
    have htotal : tally List.length (ids.map tryLockDemo) = 9 * ids.length := by
      clear hlen hinit hrun
      induction ids with
      | nil => rfl
      | cons id ids ih =>
          rw [List.map_cons, tally_cons, ih, List.length_cons]
          change 9 + 9 * ids.length = _
          omega
    omega

end DeepKnowLock

end BlogSample
