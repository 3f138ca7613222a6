import BlogSample.Theory.SearchTree
import BlogSample.Theory.Transition

/-!
# The Timer

`CTimer` of `timer.cpp`: timers in a `std::set` that is ordered by an `operator<`
of its own. Each call that reads the clock carries what it reads, and every
result of a call is part of the call, so that a run tells what its caller has
seen. The shape of the tree after a call is any shape.

The comparison takes either of the two fields as enough, so it is no order. A
new timer has the largest id, and where only the expiry decides, it is one.

## Main definitions

* `NodeBase`, `TimerNode`, `less`: Timers and their comparison.
* `timeAdd`, `timeSub`: The arithmetic of the clock, which wraps around.
* `CTimer.addTimer`, `CTimer.delTimer`, `CTimer.checkTimer`: The methods.
* `system`: The runs of a timer.
* `Pending`: What has been added and is not gone.
* `Inv`: The invariant of all runs.

## Theorems

* `addTimer_eq`: A new timer goes behind all that do not expire later.
* `delTimer_true`, `delTimer_false`: What a deletion does.
* `delTimer_eq_true_iff`: When a deletion succeeds.
* `inv_of_run`: The set holds the pending timers in order, on every run.
-/

namespace BlogSample

namespace Timer

open Transition

/-- A handle. -/
structure NodeBase where
  expire : Int
  id : Int
  deriving DecidableEq, Repr

structure TimerNode (φ : Type) extends NodeBase where
  func : φ
  deriving DecidableEq, Repr

/-- `operator <`. -/
def less (lhd rhd : NodeBase) : Bool :=
  decide (lhd.expire < rhd.expire) || decide (lhd.id < rhd.id)

/-- The order of handles that the comparison is meant for. -/
def Earlier (lhd rhd : NodeBase) : Prop :=
  lhd.expire < rhd.expire ∨ (lhd.expire = rhd.expire ∧ lhd.id < rhd.id)

/-- The sum of two values of `time_t`, which has 64 bits. -/
def timeAdd (a b : Int) : Int :=
  (a + b).bmod Int64.size

/-- The difference of two values of `time_t`. -/
def timeSub (a b : Int) : Int :=
  (a - b).bmod Int64.size

/-- A timer with its set and the next id. -/
structure CTimer (φ : Type) where
  timer : BinaryTree Unit (TimerNode φ)
  gid : Int

/-- A method call with its result, and with what it reads from the clock. -/
inductive Call (φ : Type) where
  | addTimer (tick msec : Int) (func : φ) (node : NodeBase)
  | delTimer (node : NodeBase) (result : Bool)
  | checkTimer (tick : Int) (fired : Option (TimerNode φ))
  deriving DecidableEq

variable {φ : Type}

namespace CTimer

/-- `AddTimer(msec, func)`. -/
def addTimer (s : CTimer φ) (tick msec : Int) (func : φ) : List (TimerNode φ) × NodeBase :=
  let ele := s.timer.emplace less TimerNode.toNodeBase ⟨⟨timeAdd tick msec, s.gid⟩, func⟩
  (ele.1, ele.2.toNodeBase)

/-- `DelTimer(node)`. -/
def delTimer (s : CTimer φ) (node : NodeBase) : List (TimerNode φ) × Bool :=
  match s.timer.find less TimerNode.toNodeBase node with
  | some iter => (s.timer.values.eraseIdx iter, true)
  | none => (s.timer.values, false)

/-- `CheckTimer()`, with the timer whose callback it runs. -/
def checkTimer (s : CTimer φ) (tick : Int) : List (TimerNode φ) × Option (TimerNode φ) :=
  match s.timer.values with
  | [] => ([], none)
  | node :: rest => if node.expire ≤ tick then (rest, some node) else (node :: rest, none)

/-- `TimeToSleep()`. -/
def timeToSleep (s : CTimer φ) (tick : Int) : Int :=
  match s.timer.values with
  | [] => -1
  | node :: _ => if timeSub node.expire tick > 0 then timeSub node.expire tick else 0

/-- A call, which leaves the set in any shape. -/
def step (s : CTimer φ) : Call φ → CTimer φ → Prop
  | .addTimer tick msec func node, t =>
      (t.timer.values, node) = s.addTimer tick msec func ∧ t.gid = s.gid + 1
  | .delTimer node result, t => (t.timer.values, result) = s.delTimer node ∧ t.gid = s.gid
  | .checkTimer tick fired, t => (t.timer.values, fired) = s.checkTimer tick ∧ t.gid = s.gid

end CTimer

/-- The runs of a timer. -/
def system (φ : Type) : System (CTimer φ) (Call φ) where
  init := fun s => s.timer = .null
  step := CTimer.step

/-- A call fires or deletes the timer of a handle. -/
def Call.Removes : Call φ → NodeBase → Prop
  | .checkTimer _ (some node), handle => node.toNodeBase = handle
  | .delTimer node true, handle => node = handle
  | _, _ => False

/-- A timer has been added, and neither been fired nor deleted. -/
def Pending (calls : List (Call φ)) (node : TimerNode φ) : Prop :=
  (∃ tick msec, .addTimer tick msec node.func node.toNodeBase ∈ calls) ∧
    ∀ call ∈ calls, ¬ call.Removes node.toNodeBase

/-- The set holds the pending timers in order, and all ids are used up. -/
structure Inv (calls : List (Call φ)) (s : CTimer φ) : Prop where
  sorted : s.timer.values.Pairwise (fun n m => Earlier n.toNodeBase m.toNodeBase)
  ids (node : TimerNode φ) : node ∈ s.timer.values → node.id < s.gid
  removed (call : Call φ) (handle : NodeBase) : call ∈ calls → call.Removes handle →
    handle.id < s.gid
  pending (node : TimerNode φ) : node ∈ s.timer.values ↔ Pending calls node

/-! ### The comparison -/

theorem less_eq_true_iff (n m : NodeBase) :
    less n m = true ↔ n.expire < m.expire ∨ n.id < m.id := by
  simp [less]

theorem less_eq_false_iff (n m : NodeBase) :
    less n m = false ↔ m.expire ≤ n.expire ∧ m.id ≤ n.id := by
  simp [less]

theorem less_of_earlier {n m : NodeBase} (h : Earlier n m) : less n m = true := by
  rw [less_eq_true_iff]
  unfold Earlier at h
  omega

theorem Earlier.irrefl (n : NodeBase) : ¬ Earlier n n := by
  unfold Earlier
  omega

/-- Neither of two handles is less than the other only if they are the same. -/
theorem eq_of_less_eq_false {n m : NodeBase} (h : less n m = false) (h' : less m n = false) :
    n = m := by
  rw [less_eq_false_iff] at h h'
  cases n
  cases m
  simp only [NodeBase.mk.injEq] at *
  omega

/-! ### The methods -/

/-- In an ordered list, what meets a condition that holds of all before comes
    first. -/
theorem exists_split {α : Type} (p : α → Prop) {l : List α}
    (h : l.Pairwise (fun a b => p b → p a)) :
    ∃ xs ys, l = xs ++ ys ∧ (∀ a ∈ xs, p a) ∧ ∀ a ∈ ys, ¬ p a := by
  induction l with
  | nil => exact ⟨[], [], rfl, by simp, by simp⟩
  | cons a l ih =>
      rw [List.pairwise_cons] at h
      by_cases ha : p a
      · rcases ih h.2 with ⟨xs, ys, rfl, hxs, hys⟩
        exact ⟨a :: xs, ys, rfl, List.forall_mem_cons.mpr ⟨ha, hxs⟩, hys⟩
      · refine ⟨[], a :: l, rfl, by simp, List.forall_mem_cons.mpr ⟨ha, fun b hb hpb => ?_⟩⟩
        exact ha (h.1 b hb hpb)

section

variable {calls : List (Call φ)} {s t : CTimer φ}

/-- A new timer goes behind all that do not expire later. -/
theorem addTimer_eq (hs : Inv calls s) (tick msec : Int) (func : φ) :
    ∃ xs ys, s.timer.values = xs ++ ys ∧ (∀ n ∈ xs, n.expire ≤ timeAdd tick msec) ∧
      (∀ n ∈ ys, timeAdd tick msec < n.expire) ∧
      s.addTimer tick msec func =
        (xs ++ ⟨⟨timeAdd tick msec, s.gid⟩, func⟩ :: ys, ⟨timeAdd tick msec, s.gid⟩) := by
  have hsplit := exists_split (fun n : TimerNode φ => n.expire ≤ timeAdd tick msec)
    (hs.sorted.imp (fun {n m} h hm => by
      unfold Earlier at h
      omega))
  rcases hsplit with ⟨xs, ys, heq, hxs, hys⟩
  have hids : ∀ n ∈ xs ++ ys, n.id < s.gid := fun n hn => hs.ids n (heq ▸ hn)
  have hemplace : s.timer.emplace less TimerNode.toNodeBase ⟨⟨timeAdd tick msec, s.gid⟩, func⟩ =
      (xs ++ ⟨⟨timeAdd tick msec, s.gid⟩, func⟩ :: ys, ⟨⟨timeAdd tick msec, s.gid⟩, func⟩) :=
    BinaryTree.emplace_eq heq
      (fun n hn => (less_eq_false_iff _ _).mpr
        ⟨hxs n hn, Int.le_of_lt (hids n (List.mem_append_left _ hn))⟩)
      (fun n hn => (less_eq_true_iff _ _).mpr (Or.inr (hids n (List.mem_append_left _ hn))))
      (fun n hn => (less_eq_true_iff _ _).mpr (Or.inl (Int.not_le.mp (hys n hn))))
  refine ⟨xs, ys, heq, hxs, fun n hn => Int.not_le.mp (hys n hn), ?_⟩
  unfold CTimer.addTimer
  rw [hemplace]

/-- A deletion that succeeds removes the timer with this handle. -/
theorem delTimer_true {values : List (TimerNode φ)} {handle : NodeBase}
    (h : (values, true) = s.delTimer handle) :
    ∃ xs n ys, s.timer.values = xs ++ n :: ys ∧ n.toNodeBase = handle ∧ values = xs ++ ys := by
  unfold CTimer.delTimer at h
  split at h
  · next iter hfind =>
      rcases BinaryTree.find_some hfind with ⟨n, hn, hless, hless'⟩
      rcases List.getElem?_eq_some_iff.mp hn with ⟨hlt, hget⟩
      cases h
      refine ⟨s.timer.values.take iter, n, s.timer.values.drop (iter + 1), ?_,
        eq_of_less_eq_false hless hless', List.eraseIdx_eq_take_drop_succ ..⟩
      rw [← hget, List.getElem_cons_drop, List.take_append_drop]
  · cases h

/-- A deletion that fails changes nothing. -/
theorem delTimer_false {values : List (TimerNode φ)} {handle : NodeBase}
    (h : (values, false) = s.delTimer handle) : values = s.timer.values := by
  unfold CTimer.delTimer at h
  split at h
  · cases h
  · exact congrArg Prod.fst h

/-- A timer is deleted if and only if those that the search passes and that expire
    later all have later ids. -/
theorem delTimer_eq_true_iff (hs : Inv calls s) {xs ys : List (TimerNode φ)} {n : TimerNode φ}
    (h : s.timer.values = xs ++ n :: ys) :
    (s.delTimer n.toNodeBase).2 = true ↔ ∀ m ∈ s.timer.passed xs.length, n.id ≤ m.id := by
  have hsorted := hs.sorted
  rw [h, List.pairwise_append, List.pairwise_cons] at hsorted
  rcases hsorted with ⟨-, ⟨hys, -⟩, hxs⟩
  have hxs : ∀ m ∈ xs, Earlier m.toNodeBase n.toNodeBase :=
    fun m hm => hxs m hm n List.mem_cons_self
  have hfind : s.timer.find less TimerNode.toNodeBase n.toNodeBase = some xs.length ↔
      ∀ m ∈ s.timer.passed xs.length, less m.toNodeBase n.toNodeBase = false :=
    BinaryTree.find_eq_some_iff h (fun m hm => less_of_earlier (hxs m hm))
      ((less_eq_false_iff _ _).mpr ⟨Int.le_refl _, Int.le_refl _⟩)
  have hpassed : (∀ m ∈ s.timer.passed xs.length, less m.toNodeBase n.toNodeBase = false) ↔
      ∀ m ∈ s.timer.passed xs.length, n.id ≤ m.id := by
    refine forall₂_congr (fun m hm => ?_)
    have hlater := hys m (BinaryTree.mem_of_mem_passed h m hm)
    unfold Earlier at hlater
    rw [less_eq_false_iff]
    omega
  rw [← hpassed, ← hfind]
  unfold CTimer.delTimer
  constructor
  · intro hresult
    split at hresult
    · next iter hiter =>
        rcases BinaryTree.find_some hiter with ⟨m, hm, hless, hless'⟩
        have hsame := eq_of_less_eq_false hless hless'
        -- No other timer has this handle.
        rw [h] at hm
        rcases Nat.lt_trichotomy iter xs.length with hlt | rfl | hgt
        · rw [List.getElem?_append_left hlt] at hm
          exact absurd (hsame ▸ hxs m (List.mem_of_getElem? hm)) (Earlier.irrefl _)
        · exact hiter
        · rw [List.getElem?_append_right (by omega)] at hm
          have hindex : iter - xs.length = iter - xs.length - 1 + 1 := by omega
          rw [hindex, List.getElem?_cons_succ] at hm
          exact absurd (hsame ▸ hys m (List.mem_of_getElem? hm)) (Earlier.irrefl _)
    · cases hresult
  · intro hiter
    rw [hiter]

/-- A check takes the first timer, if it takes one. -/
theorem checkTimer_some {values : List (TimerNode φ)} {tick : Int} {n : TimerNode φ}
    (h : (values, some n) = s.checkTimer tick) :
    s.timer.values = n :: values ∧ n.expire ≤ tick := by
  unfold CTimer.checkTimer at h
  split at h
  · cases h
  · next m rest hvalues =>
      split_ifs at h with htick
      · cases h
        exact ⟨hvalues, htick⟩
      · cases h

theorem checkTimer_none {values : List (TimerNode φ)} {tick : Int}
    (h : (values, none) = s.checkTimer tick) : values = s.timer.values := by
  unfold CTimer.checkTimer at h
  split at h
  · next hvalues => exact (congrArg Prod.fst h).trans hvalues.symm
  · next m rest hvalues =>
      split_ifs at h with htick
      · cases h
      · exact (congrArg Prod.fst h).trans hvalues.symm

/-! ### The invariant -/

theorem removes_snoc {call : Call φ} {handle : NodeBase} :
    (∀ c ∈ calls ++ [call], ¬ c.Removes handle) ↔
      (∀ c ∈ calls, ¬ c.Removes handle) ∧ ¬ call.Removes handle := by
  rw [List.forall_mem_append, List.forall_mem_singleton]

/-- A call that adds nothing leaves the pending timers that it does not remove. -/
theorem pending_snoc {call : Call φ} (hcall : ∀ tick msec func node,
    call ≠ .addTimer tick msec func node) (n : TimerNode φ) :
    Pending (calls ++ [call]) n ↔ Pending calls n ∧ ¬ call.Removes n.toNodeBase := by
  have hadded : (∃ tick msec, Call.addTimer tick msec n.func n.toNodeBase ∈ calls ++ [call]) ↔
      ∃ tick msec, .addTimer tick msec n.func n.toNodeBase ∈ calls := by
    refine exists₂_congr (fun tick msec => ?_)
    rw [List.mem_append, List.mem_singleton, or_iff_left (hcall tick msec _ _).symm]
  unfold Pending
  rw [hadded, removes_snoc, and_assoc]

/-- A timer that is added is pending. -/
theorem pending_addTimer {tick msec : Int} {func : φ} {node : NodeBase}
    (hnew : ∀ call ∈ calls, ¬ call.Removes node) (n : TimerNode φ) :
    Pending (calls ++ [.addTimer tick msec func node]) n ↔
      Pending calls n ∨ n = ⟨node, func⟩ := by
  unfold Pending
  rw [removes_snoc]
  constructor
  · rintro ⟨⟨tick', msec', hmem⟩, hremoves, -⟩
    rcases List.mem_append.mp hmem with hmem | hmem
    · exact Or.inl ⟨⟨tick', msec', hmem⟩, hremoves⟩
    · cases n
      cases List.mem_singleton.mp hmem
      exact Or.inr rfl
  · rintro (⟨⟨tick', msec', hmem⟩, hremoves⟩ | rfl)
    · exact ⟨⟨tick', msec', List.mem_append_left _ hmem⟩, hremoves, id⟩
    · exact ⟨⟨tick, msec, List.mem_append_right _ (List.mem_singleton.mpr rfl)⟩, hnew, id⟩

/-- A timer of the set is removed. -/
theorem inv_remove (hs : Inv calls s) {call : Call φ} (hcall : ∀ tick msec func node,
    call ≠ .addTimer tick msec func node) {xs ys : List (TimerNode φ)} {n : TimerNode φ}
    (hvalues : s.timer.values = xs ++ n :: ys) (ht : t.timer.values = xs ++ ys)
    (hgid : t.gid = s.gid) (hremoves : ∀ handle, call.Removes handle ↔ n.toNodeBase = handle) :
    Inv (calls ++ [call]) t := by
  have hsublist : t.timer.values.Sublist s.timer.values := by
    rw [hvalues, ht]
    exact (List.Sublist.refl xs).append (List.sublist_cons_self n ys)
  have hmem : n ∈ s.timer.values := by
    rw [hvalues]
    exact List.mem_append_right _ List.mem_cons_self
  -- No other node is as early as this one, in one direction or the other.
  have hsorted := hs.sorted
  rw [hvalues, List.pairwise_append, List.pairwise_cons] at hsorted
  rcases hsorted with ⟨-, ⟨hys, -⟩, hxs⟩
  constructor
  · exact hs.sorted.sublist hsublist
  · exact fun m hm => hgid ▸ hs.ids m (hsublist.mem hm)
  · intro c handle hc hr
    rw [hgid]
    rcases List.mem_append.mp hc with hc | hc
    · exact hs.removed c handle hc hr
    · rw [List.mem_singleton.mp hc, hremoves] at hr
      exact hr ▸ hs.ids n hmem
  · intro m
    rw [pending_snoc hcall, ← hs.pending, hremoves, ht, hvalues, List.mem_append, List.mem_append,
      List.mem_cons]
    constructor
    -- What stays is not the node that is removed.
    · rintro (hm | hm)
      · refine ⟨Or.inl hm, fun heq => Earlier.irrefl n.toNodeBase ?_⟩
        have := hxs m hm n List.mem_cons_self
        rwa [← heq] at this
      · refine ⟨Or.inr (Or.inr hm), fun heq => Earlier.irrefl n.toNodeBase ?_⟩
        have := hys m hm
        rwa [← heq] at this
    · rintro ⟨hm | rfl | hm, hne⟩
      · exact Or.inl hm
      · exact absurd rfl hne
      · exact Or.inr hm

/-- A call that leaves the set as it is. -/
theorem inv_keep (hs : Inv calls s) {call : Call φ} (hcall : ∀ tick msec func node,
    call ≠ .addTimer tick msec func node) (ht : t.timer.values = s.timer.values)
    (hgid : t.gid = s.gid) (hremoves : ∀ handle, ¬ call.Removes handle) :
    Inv (calls ++ [call]) t := by
  constructor
  · exact ht ▸ hs.sorted
  · intro m hm
    rw [hgid]
    exact hs.ids m (ht ▸ hm)
  · intro c handle hc hr
    rw [hgid]
    rcases List.mem_append.mp hc with hc | hc
    · exact hs.removed c handle hc hr
    · exact absurd (List.mem_singleton.mp hc ▸ hr) (hremoves handle)
  · intro m
    rw [pending_snoc hcall, ht, hs.pending, and_iff_left (hremoves _)]

/-- A timer is added before those that expire later, with a new id. -/
theorem inv_add (hs : Inv calls s) {tick msec : Int} {func : φ} {node : NodeBase}
    (h : s.step (.addTimer tick msec func node) t) :
    Inv (calls ++ [.addTimer tick msec func node]) t := by
  rcases h with ⟨hvalues, hgid⟩
  -- The node goes behind those that expire no later, and before the others.
  rcases addTimer_eq hs tick msec func with ⟨xs, ys, heq, hxs, hys, hadd⟩
  rw [hadd, Prod.mk.injEq] at hvalues
  rcases hvalues with ⟨hvalues, rfl⟩
  have hsorted := hs.sorted
  rw [heq, List.pairwise_append] at hsorted
  rcases hsorted with ⟨hsorted, hsorted', hcross⟩
  have hids : ∀ n ∈ xs ++ ys, n.id < s.gid := fun n hn => hs.ids n (heq ▸ hn)
  constructor
  · rw [hvalues, List.pairwise_append, List.pairwise_cons]
    refine ⟨hsorted, ⟨fun m hm => Or.inl (hys m hm), hsorted'⟩, fun n hn m hm => ?_⟩
    rcases List.mem_cons.mp hm with rfl | hm
    · have hexpire := hxs n hn
      have hid := hids n (List.mem_append_left _ hn)
      unfold Earlier
      simp only
      omega
    · exact hcross n hn m hm
  · intro n hn
    rw [hvalues, List.mem_append, List.mem_cons] at hn
    rw [hgid]
    rcases hn with hn | rfl | hn
    · exact Int.lt_add_one_of_le (Int.le_of_lt (hids n (List.mem_append_left _ hn)))
    · exact Int.lt_succ _
    · exact Int.lt_add_one_of_le (Int.le_of_lt (hids n (List.mem_append_right _ hn)))
  -- Its id has never been given before, so no call has removed it.
  · intro c handle hc hr
    rw [hgid]
    rcases List.mem_append.mp hc with hc | hc
    · exact Int.lt_add_one_of_le (Int.le_of_lt (hs.removed c handle hc hr))
    · rw [List.mem_singleton.mp hc] at hr
      exact absurd hr id
  · intro n
    rw [pending_addTimer (fun c hc hr => Int.lt_irrefl _ (hs.removed c _ hc hr)),
      ← hs.pending, heq, hvalues]
    simp only [List.mem_append, List.mem_cons]
    tauto

/-- Every call keeps the invariant. -/
theorem inv_step (hs : Inv calls s) {call : Call φ} (h : s.step call t) :
    Inv (calls ++ [call]) t := by
  cases call with
  | addTimer tick msec func node => exact inv_add hs h
  | delTimer handle result =>
      rcases h with ⟨hvalues, hgid⟩
      cases result with
      | true =>
          rcases delTimer_true hvalues with ⟨xs, n, ys, heq, hn, ht⟩
          refine inv_remove hs (fun _ _ _ _ => nofun) heq ht hgid (fun other => ?_)
          rw [hn]
          exact Iff.rfl
      | false =>
          exact inv_keep hs (fun _ _ _ _ => nofun) (delTimer_false hvalues) hgid
            (fun _ => id)
  | checkTimer tick fired =>
      rcases h with ⟨hvalues, hgid⟩
      cases fired with
      | some n =>
          have hfirst : s.timer.values = [] ++ n :: t.timer.values := (checkTimer_some hvalues).1
          exact inv_remove hs (fun _ _ _ _ => nofun) hfirst rfl hgid (fun _ => Iff.rfl)
      | none =>
          exact inv_keep hs (fun _ _ _ _ => nofun) (checkTimer_none hvalues) hgid
            (fun _ => id)

/-- The invariant of every run. -/
theorem inv_of_run {s₀ : CTimer φ} {steps : List (CTimer φ × Call φ)}
    (h : (system φ).Run s₀ steps s) (hinit : (system φ).init s₀) :
    Inv (steps.map Prod.snd) s := by
  induction h with
  | nil =>
      have hvalues : s₀.timer.values = [] := by
        rw [hinit]
        rfl
      constructor
      · rw [hvalues]
        exact .nil
      · exact fun n hn => absurd (hvalues ▸ hn) List.not_mem_nil
      · exact fun c _ hc => absurd hc List.not_mem_nil
      · intro n
        rw [hvalues]
        refine iff_of_false List.not_mem_nil ?_
        rintro ⟨⟨tick, msec, hmem⟩, -⟩
        exact List.not_mem_nil hmem
  | snoc steps s call t _ hstep ih =>
      rw [List.map_append]
      exact inv_step ih hstep

end

end Timer

end BlogSample
