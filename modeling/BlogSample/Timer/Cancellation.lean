import BlogSample.Timer.CTimer

/-!
# Cancellation and Order

A check runs the timer that comes first, on every run. A deletion need not find
its timer: the search goes to the right of a timer with a smaller id even if
that one expires later, and the timer it looks for is on the left. So a handle
is safe in one shape of the tree and not in another, unless no timer that
expires later has been added before it.

## Main definitions

* `Honours`: What a run has to give its caller.
* `CTimer.Straight`: The search for a handle is not led astray.

## Theorems

* `checkTimer_timeToSleep`: After the time to sleep the next timer runs.
* `honours_iff`: A run keeps what it has to if and only if no search is led
  astray.
* `straight_iff`: The handles that are found in every shape.
-/

namespace BlogSample

namespace Timer

open Transition

variable {φ : Type}

/-- The set always holds the timers that are pending, the deletion of a pending one
    succeeds and keeps it from being fired, and what is fired is due and the
    first of them. -/
structure Honours (steps : List (CTimer φ × Call φ)) (last : CTimer φ) : Prop where
  contents (before : List (CTimer φ × Call φ)) (s : CTimer φ) (call : Call φ)
    (after : List (CTimer φ × Call φ)) : steps = before ++ (s, call) :: after →
      ∀ n, n ∈ s.timer.values ↔ Pending (before.map Prod.snd) n
  last (n : TimerNode φ) : n ∈ last.timer.values ↔ Pending (steps.map Prod.snd) n
  delTimer (before : List (CTimer φ × Call φ)) (s : CTimer φ) (handle : NodeBase) (result : Bool)
    (after : List (CTimer φ × Call φ)) : steps = before ++ (s, .delTimer handle result) :: after →
      ∀ n, Pending (before.map Prod.snd) n → n.toNodeBase = handle →
        result = true ∧ ∀ p ∈ after, ∀ tick m, p.2 = .checkTimer tick (some m) →
          m.toNodeBase ≠ handle
  checkTimer (before : List (CTimer φ × Call φ)) (s : CTimer φ) (tick : Int) (n : TimerNode φ)
    (after : List (CTimer φ × Call φ)) : steps = before ++ (s, .checkTimer tick (some n)) :: after →
      Pending (before.map Prod.snd) n ∧ n.expire ≤ tick ∧
        ∀ m, Pending (before.map Prod.snd) m → m = n ∨ Earlier n.toNodeBase m.toNodeBase

/-- None of the timers in whose left subtree a handle's timer is has a smaller
    id. -/
def CTimer.Straight (s : CTimer φ) (handle : NodeBase) : Prop :=
  ∀ xs n ys, s.timer.values = xs ++ n :: ys → n.toNodeBase = handle →
    ∀ m ∈ s.timer.passed xs.length, handle.id ≤ m.id

/-- After the time to sleep the next timer is due, unless the time that is left does
    not fit. -/
theorem checkTimer_timeToSleep (s : CTimer φ) (tick : Int)
    (hfit : ∀ n ∈ s.timer.values,
      -9223372036854775808 ≤ n.expire - tick ∧ n.expire - tick < 9223372036854775808) :
    (s.checkTimer (tick + s.timeToSleep tick)).2 = s.timer.values.head? := by
  unfold CTimer.checkTimer CTimer.timeToSleep
  cases hvalues : s.timer.values with
  | nil => rfl
  | cons n rest =>
      have hn := hfit n (by rw [hvalues]; exact List.mem_cons_self)
      have hsub : timeSub n.expire tick = n.expire - tick :=
        Int.bmod_eq_of_le (by unfold Int64.size; omega) (by unfold Int64.size; omega)
      have hdue : n.expire ≤
          tick + (if timeSub n.expire tick > 0 then timeSub n.expire tick else 0) := by
        rw [hsub]
        split_ifs <;> omega
      exact congrArg Prod.snd (if_pos hdue)

section

variable {s₀ s : CTimer φ} {steps : List (CTimer φ × Call φ)}

/-- What is fired on a run is the first of the pending timers. -/
theorem fired_first (h : (system φ).Run s₀ steps s) (hinit : (system φ).init s₀) {t : CTimer φ}
    {tick : Int} {n : TimerNode φ} (hstep : s.step (.checkTimer tick (some n)) t) :
    Pending (steps.map Prod.snd) n ∧ n.expire ≤ tick ∧
      ∀ m, Pending (steps.map Prod.snd) m → m = n ∨ Earlier n.toNodeBase m.toNodeBase := by
  have hs := inv_of_run h hinit
  rcases checkTimer_some hstep.1 with ⟨hvalues, htick⟩
  have hsorted := hs.sorted
  rw [hvalues, List.pairwise_cons] at hsorted
  refine ⟨(hs.pending n).mp (by rw [hvalues]; exact List.mem_cons_self), htick, fun m hm => ?_⟩
  have hmem := (hs.pending m).mpr hm
  rw [hvalues] at hmem
  rcases List.mem_cons.mp hmem with rfl | hmem
  · exact Or.inl rfl
  · exact Or.inr (hsorted.1 m hmem)

/-- The search of a deletion that succeeds has not been led astray. -/
theorem straight_of_true (h : (system φ).Run s₀ steps s) (hinit : (system φ).init s₀)
    {s' : CTimer φ} {handle : NodeBase} (hp : (s', .delTimer handle true) ∈ steps) :
    s'.Straight handle := by
  rintro xs n ys hvalues rfl
  rcases List.append_of_mem hp with ⟨before, after, heq⟩
  rcases (heq ▸ h).split with ⟨hrun, t, hstep⟩
  exact (delTimer_eq_true_iff (inv_of_run hrun hinit) hvalues).mp (congrArg Prod.snd hstep.1).symm

/-- On every run of a timer, whatever the clock reads: the set holds what is
    pending, pending timers are deleted for good, and the first one that is due
    is fired, if and only if no deletion is led astray by a timer that was added
    before and expires later. -/
theorem honours_iff (h : (system φ).Run s₀ steps s) (hinit : (system φ).init s₀) :
    Honours steps s ↔ ∀ p ∈ steps, ∀ handle result, p.2 = .delTimer handle result →
      p.1.Straight handle := by
  constructor
  · rintro hhonours ⟨s', call⟩ hp handle result rfl xs n ys hvalues rfl
    rcases List.append_of_mem hp with ⟨before, after, heq⟩
    have hmem : n ∈ s'.timer.values := by
      rw [hvalues]
      exact List.mem_append_right _ List.mem_cons_self
    have hpending := (hhonours.contents before s' _ after heq n).mp hmem
    have hresult := (hhonours.delTimer before s' _ result after heq n hpending rfl).1
    exact straight_of_true h hinit (hresult ▸ hp) xs n ys hvalues rfl
  · intro hstraight
    constructor
    · intro before s' call after heq n
      exact (inv_of_run (heq ▸ h).split.1 hinit).pending n
    · exact (inv_of_run h hinit).pending
    · rintro before s' handle result after heq n hpending rfl
      rcases (heq ▸ h).split with ⟨hrun, t, hstep⟩
      have hs := inv_of_run hrun hinit
      rcases List.append_of_mem ((hs.pending n).mpr hpending) with ⟨xs, ys, hvalues⟩
      have hp : (s', Call.delTimer n.toNodeBase result) ∈ steps := by
        rw [heq]
        exact List.mem_append_right _ List.mem_cons_self
      have htrue := (delTimer_eq_true_iff hs hvalues).mpr
        (hstraight _ hp n.toNodeBase result rfl xs n ys hvalues rfl)
      have hresult : result = true := (congrArg Prod.snd hstep.1).trans htrue
      refine ⟨hresult, ?_⟩
      rintro ⟨u, call⟩ hafter tick m rfl hm
      -- What is fired later is pending then, and this handle has been deleted.
      rcases List.append_of_mem hafter with ⟨mid, rest, rfl⟩
      have heq' : steps = (before ++ (s', Call.delTimer n.toNodeBase result) :: mid) ++
          (u, Call.checkTimer tick (some m)) :: rest := by
        rw [heq, List.append_assoc, List.cons_append]
      rcases (heq' ▸ h).split with ⟨hrun', t', hstep'⟩
      refine (fired_first hrun' hinit hstep').1.2 (.delTimer n.toNodeBase result) ?_ ?_
      · simp
      · rw [hresult]
        exact hm.symm
    · intro before s' tick n after heq
      rcases (heq ▸ h).split with ⟨hrun, t, hstep⟩
      exact fired_first hrun hinit hstep

/-- A handle is found in every shape of the tree if and only if no timer that
    expires later has been added before it. -/
theorem straight_iff {values : List (TimerNode φ)}
    (hvalues : values.Pairwise (fun n m => Earlier n.toNodeBase m.toNodeBase))
    {n : TimerNode φ} (hn : n ∈ values) :
    (∀ t : CTimer φ, t.timer.values = values → t.Straight n.toNodeBase) ↔
      ∀ m ∈ values, n.expire < m.expire → n.id ≤ m.id := by
  constructor
  · intro hshapes m hm hexpire
    rcases List.append_of_mem hn with ⟨xs, ys, rfl⟩
    rw [List.pairwise_append] at hvalues
    have hbehind : m ∈ ys := by
      rcases List.mem_append.mp hm with hm | hm
      · have hearlier := hvalues.2.2 m hm n List.mem_cons_self
        unfold Earlier at hearlier
        omega
      · rcases List.mem_cons.mp hm with rfl | hm
        · exact absurd hexpire (Int.lt_irrefl _)
        · exact hm
    rcases List.append_of_mem hbehind with ⟨ys, zs, rfl⟩
    -- The timer that expires later is the root in some shape.
    rcases BinaryTree.exists_passed () xs ys zs n m with ⟨t, ht, hpassed⟩
    exact hshapes ⟨t, 0⟩ ht xs n _ ht rfl m hpassed
  · intro hlater t ht xs n' ys heq hsame m hm
    have hbehind := BinaryTree.mem_of_mem_passed heq m hm
    rw [← ht, heq, List.pairwise_append, List.pairwise_cons] at hvalues
    have hearlier := hvalues.2.1.1 m hbehind
    have hmem : m ∈ values := by
      rw [← ht, heq]
      exact List.mem_append_right _ (List.mem_cons_of_mem _ hbehind)
    have hid := hlater m hmem
    rw [hsame] at hearlier
    unfold Earlier at hearlier
    omega

end

/-- Two timers, the second of which expires first. -/
def first : TimerNode Unit := ⟨⟨3000, 0⟩, ()⟩

def second : TimerNode Unit := ⟨⟨1000, 1⟩, ()⟩

/-- In the tree of two insertions the timer is not found. -/
theorem honours_lost : ∃ steps s, (system Unit).Run ⟨.null, 0⟩ steps s ∧ ¬ Honours steps s := by
  have hrun : (system Unit).Run ⟨.null, 0⟩
      [(⟨.null, 0⟩, .addTimer 0 3000 () first.toNodeBase),
        (⟨.node () .null first .null, 1⟩, .addTimer 0 1000 () second.toNodeBase),
        (⟨.node () (.node () .null second .null) first .null, 2⟩,
          .delTimer second.toNodeBase false)]
      ⟨.node () (.node () .null second .null) first .null, 2⟩ := by
    refine .snoc [_, _] _ _ _ (.snoc [_] _ _ _ (.snoc [] _ _ _ .nil ?_) ?_) ?_
    · exact ⟨rfl, rfl⟩
    · exact ⟨rfl, rfl⟩
    · exact ⟨rfl, rfl⟩
  refine ⟨_, _, hrun, fun h => ?_⟩
  have hpending : Pending [.addTimer 0 3000 () first.toNodeBase,
      .addTimer 0 1000 () second.toNodeBase] second :=
    ⟨⟨0, 1000, by simp⟩, by simp [Call.Removes]⟩
  have hresult := (h.delTimer [_, _] _ _ false [] rfl second hpending rfl).1
  cases hresult

/-- Three timers in the trees that three insertions and two deletions give, the second of
    which expires last. The third and the first are deleted, and the second one is fired. -/
theorem honours_balanced : ∃ steps s, (system Unit).Run ⟨.null, 0⟩ steps s ∧
    steps.map Prod.snd = [.addTimer 0 1000 () ⟨1000, 0⟩, .addTimer 0 3000 () ⟨3000, 1⟩,
      .addTimer 0 2100 () ⟨2100, 2⟩, .delTimer ⟨2100, 2⟩ true, .delTimer ⟨1000, 0⟩ true,
      .checkTimer 3000 (some ⟨⟨3000, 1⟩, ()⟩)] ∧ Honours steps s := by
  let leaf (expire id : Int) : BinaryTree Unit (TimerNode Unit) :=
    .node () .null ⟨⟨expire, id⟩, ()⟩ .null
  have hrun : (system Unit).Run ⟨.null, 0⟩
      [(⟨.null, 0⟩, .addTimer 0 1000 () ⟨1000, 0⟩),
        (⟨leaf 1000 0, 1⟩, .addTimer 0 3000 () ⟨3000, 1⟩),
        (⟨.node () .null ⟨⟨1000, 0⟩, ()⟩ (leaf 3000 1), 2⟩, .addTimer 0 2100 () ⟨2100, 2⟩),
        (⟨.node () (leaf 1000 0) ⟨⟨2100, 2⟩, ()⟩ (leaf 3000 1), 3⟩, .delTimer ⟨2100, 2⟩ true),
        (⟨.node () (leaf 1000 0) ⟨⟨3000, 1⟩, ()⟩ .null, 3⟩, .delTimer ⟨1000, 0⟩ true),
        (⟨leaf 3000 1, 3⟩, .checkTimer 3000 (some ⟨⟨3000, 1⟩, ()⟩))]
      ⟨.null, 3⟩ := by
    refine .snoc [_, _, _, _, _] _ _ _ (.snoc [_, _, _, _] _ _ _ (.snoc [_, _, _] _ _ _
      (.snoc [_, _] _ _ _ (.snoc [_] _ _ _ (.snoc [] _ _ _ .nil ?_) ?_) ?_) ?_) ?_) ?_
    all_goals exact ⟨rfl, rfl⟩
  refine ⟨_, _, hrun, rfl, (honours_iff hrun rfl).mpr ?_⟩
  rintro ⟨t, call⟩ hp handle result rfl
  -- Both deletions succeed.
  have hresult : result = true := by
    simp only [List.mem_cons, List.not_mem_nil, or_false, Prod.mk.injEq, reduceCtorEq, and_false,
      false_or, Call.delTimer.injEq] at hp
    rcases hp with ⟨-, -, hr⟩ | ⟨-, -, hr⟩ <;> exact hr
  exact straight_of_true hrun rfl (hresult ▸ hp)

end Timer

end BlogSample
