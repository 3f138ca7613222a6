import BlogSample.DeadlockDetector.Indices

/-!
# The Edges and the Waiting Threads

When the graph is the wait-for graph. An edge is stored at `lock_before`,
towards whom the lock table names then, and looked for at `lock_after`, by
whom the lock table names then. Nothing happens to it when the mutex is
released or goes to another thread, so it outlives the state it describes
whenever a thread waits through a release.

Between a release and its hook, and between an acquire and its hook, the
stored edges may be behind; `Unsettled` says for which mutexes. The invariant
`Exact` is the claim itself outside those.

## Main definitions

* `WaitsFor`: The wait-for relation of the threads.
* `Stored`: The steps that keep the graph up to date and to the arrays.
* `Unsettled`: A mutex with a hook outstanding.
* `Exact`: The invariant.

## Theorems

* `exact_step`: The invariant is kept.
* `hook_placed`: The hooks keep to the arrays.
* `waitGraph_exact`: The stored edges are the wait-for relation.
* `waitGraph_stale_edge`: A thread that waits through a release keeps its
  edge to a thread that holds nothing.
-/

namespace BlogSample

namespace DeadlockDetector

open Transition TaskGraph VertexList LockList

/-- A thread has run `lock_before` on a mutex it has not acquired yet, and
    another thread holds it. -/
def WaitsFor (s : State) (t h : Nat) : Prop :=
  ∃ m, s.phase t = .waiting m ∧ s.holder m = some h

/-- A step that keeps the graph up to date, and to the arrays.

    At `lock_before` the lock table is right about the mutex: if it is held,
    then by another thread, the one and only one that is named; if it is
    free, those named have their `unlock_after` to run or are the thread
    itself. If there is a slot, vertices may be added: `num` is not negative.

    At `lock_after` nobody else waits for the mutex, and an edge of the thread
    goes to whom the first slot of the mutex names, and that thread has a
    vertex. Without a slot, the table is not full.

    At `unlock_after` the mutex has a slot. If the mutex is free, no waiting
    thread has an edge, unless another `unlock_after` is outstanding; and if
    the slot is cleared, the vertex that goes with it has no edges. -/
def Stored (w : Setting) (s : State) : Action → Prop
  | .lockBefore t m =>
      (∀ h, s.holder m = some h → h ≠ t ∧ s.tg.locks.Names m h ∧
        ∀ k, s.tg.locks.IsFor k m → (s.tg.locks.locklist.cell k).id = h) ∧
      (s.holder m = none → ∀ k, s.tg.locks.IsFor k m →
        (s.tg.locks.locklist.cell k).id = t ∨
          s.phase (s.tg.locks.locklist.cell k).id = .released m) ∧
      ((∃ k, s.tg.locks.IsFor k m) → 0 ≤ s.tg.vertices.num)
  | .lockAfter t m =>
      (∀ x ∈ w.threads, x ≠ t → s.phase x ≠ .waiting m) ∧
      (∀ h, s.tg.vertices.Edge t h → s.tg.vertices.HasVertex h ∧
        ∃ k : Nat, s.tg.locks.IsFor k m ∧ (∀ j < k, ¬ s.tg.locks.IsFor j m) ∧
          (s.tg.locks.locklist.cell k).id = h) ∧
      ((∃ k, s.tg.locks.IsFor k m) ∨ s.tg.locks.lockidx < MAX)
  | .unlockAfter t m =>
      (∃ k, s.tg.locks.IsFor k m) ∧
      (s.holder m = none → (∃ x ∈ w.threads, x ≠ t ∧ s.phase x = .released m) ∨
        ∀ x ∈ w.threads, s.phase x = .waiting m → ∀ h, ¬ s.tg.vertices.Edge x h) ∧
      ∀ k : Nat, s.tg.locks.IsFor k m → (∀ j < k, ¬ s.tg.locks.IsFor j m) →
        (s.tg.locks.locklist.cell k).degress = 0 →
        ∀ i : Nat, (i : Int) + 1 = s.tg.vertices.num → (s.tg.vertices.list.cell i).next = []
  | _ => True

instance (w : Setting) (s : State) : DecidablePred (Stored w s)
  | .lockBefore t m => inferInstanceAs (Decidable ((∀ h ∈ s.holder m, h ≠ t ∧ _) ∧ _))
  | .acquire _ _ => .isTrue trivial
  | .lockAfter t _ => inferInstanceAs (Decidable (_ ∧ (∀ h, s.tg.vertices.Edge t h → _) ∧ _))
  | .release _ _ => .isTrue trivial
  | .unlockAfter _ _ => inferInstanceAs (Decidable (_ ∧
      (_ → _ ∨ ∀ x ∈ w.threads, _ → ∀ h, s.tg.vertices.Edge x h → False) ∧ _))

/-- A hook is outstanding that the edges to the holder of the mutex may be
    waiting for. -/
def Unsettled (s : State) (m : Nat) : Prop :=
  (s.holder m = none ∧ ∃ x, s.phase x = .released m) ∨ ∃ x, s.phase x = .acquired m

/-- The edges are those of waiting threads to the holders, give or take the
    outstanding hooks. -/
structure Exact (s : State) : Prop where
  wf : s.tg.vertices.Wf
  edge : ∀ t h, s.tg.vertices.Edge t h →
    (∃ m, s.phase t = .waiting m ∧ (s.holder m = some h ∨ Unsettled s m)) ∨
      ∃ m, s.phase t = .acquired m
  waits : ∀ t m h, s.phase t = .waiting m → s.holder m = some h → s.phase h ≠ .acquired m →
    s.tg.vertices.Edge t h

theorem exact_initial {s : State} (h : Initial s) : Exact s where
  wf := by
    refine ⟨by rw [h.1]; decide, fun i hi => ?_, fun i hi => ?_, fun i j hi => ?_,
      fun i hi => ?_⟩
    all_goals rw [h.1] at hi; omega
  edge := by
    rintro t x ⟨i, hi, -⟩
    rw [h.1] at hi
    omega
  waits := fun t m x ht => by
    rw [h.2.2.1 t] at ht
    cases ht

/-- A thread outside, or past a release, has no edges. -/
theorem Exact.not_edge {s : State} (he : Exact s) {t : Nat} (hw : ∀ m, s.phase t ≠ .waiting m)
    (ha : ∀ m, s.phase t ≠ .acquired m) (h : Nat) : ¬ s.tg.vertices.Edge t h := by
  intro hedge
  rcases he.edge t h hedge with ⟨m, hp, -⟩ | ⟨m, hp⟩
  · exact hw m hp
  · exact ha m hp

/-- A mutex stays unsettled when a thread that has no hook of it outstanding
    moves. -/
theorem Unsettled.move {s : State} {m t : Nat} (h : Unsettled s m) (q : Phase)
    (hr : s.phase t ≠ .released m) (ha : s.phase t ≠ .acquired m) :
    (s.holder m = none ∧ ∃ x, Function.update s.phase t q x = .released m) ∨
      ∃ x, Function.update s.phase t q x = .acquired m := by
  rcases h with ⟨hf, hx⟩ | hx
  · exact Or.inl ⟨hf, exists_update_phase q hr hx⟩
  · exact Or.inr (exists_update_phase q ha hx)

section Steps

variable {w : Setting} {s : State} (he : Exact s)
include he

theorem exact_lockBefore {t m : Nat} {tg : TaskGraph} (hidle : s.phase t = .idle)
    (hok : Stored w s (.lockBefore t m)) (h : s.tg.lockBefore t m = some tg) :
    Exact (s.move tg (.lockBefore t m)) := by
  have hne : ∀ p, p ≠ .idle → s.phase t ≠ p := fun p hp ht => hp (ht.symm.trans hidle)
  -- A thread that is between two hooks of none has no edge.
  have hno := he.not_edge (t := t) (fun _ => hne _ (by simp)) (fun _ => hne _ (by simp))
  rcases lockBefore_edge he.wf h with ⟨hwf, hedge⟩
  refine ⟨hwf, fun a b hab => ?_, fun a n x ha hx hp => ?_⟩
  · rcases (hedge a b).mp hab with hold | ⟨rfl, hbt, hnames⟩
    -- An old edge is of another thread, for which nothing changes.
    · have hat : a ≠ t := by
        rintro rfl
        exact hno b hold
      simp only [State.move, Function.update_of_ne hat]
      rcases he.edge a b hold with ⟨n, hn, hh | hu⟩ | hacq
      · exact Or.inl ⟨n, hn, Or.inl hh⟩
      · exact Or.inl ⟨n, hn, Or.inr (hu.move _ (hne _ (by simp)) (hne _ (by simp)))⟩
      · exact Or.inr hacq
    -- The new edge goes to the holder, or the hook of the one named is outstanding.
    · refine Or.inl ⟨m, Function.update_self .., ?_⟩
      cases hh : s.holder m with
      | some x =>
          rcases hnames with ⟨k, hk, rfl⟩
          rw [(hok.1 x hh).2.2 k hk]
          exact Or.inl hh
      | none =>
          rcases hnames with ⟨k, hk, rfl⟩
          have hrel := (hok.2.1 hh k hk).resolve_left hbt
          exact Or.inr (Or.inl ⟨hh, _, (Function.update_of_ne hbt _ _).trans hrel⟩)
  · refine (hedge a x).mpr ?_
    by_cases hat : a = t
    · subst hat
      change Function.update s.phase a (.waiting m) a = .waiting n at ha
      rw [Function.update_self] at ha
      obtain rfl : m = n := Phase.waiting.inj ha
      -- The slot names the holder, so the hook has put the edge.
      rcases hok.1 x hx with ⟨hxa, hnames, -⟩
      exact Or.inr ⟨rfl, hxa, hnames⟩
    · change Function.update s.phase t (.waiting m) a = .waiting n at ha
      rw [Function.update_of_ne hat] at ha
      exact Or.inl (he.waits a n x ha hx (phase_ne_of_update (hne _ (by simp)) hp))

theorem exact_acquire {t m : Nat} (hwait : s.phase t = .waiting m) :
    Exact (s.move s.tg (.acquire t m)) := by
  have hne : ∀ p, p ≠ .waiting m → s.phase t ≠ p := fun p hp ht => hp (ht.symm.trans hwait)
  refine ⟨he.wf, fun a b hab => ?_, fun a n x ha hx hp => ?_⟩
  -- Edges of the thread are of one that has acquired; its hook takes them away.
  · by_cases hat : a = t
    · exact Or.inr ⟨m, hat ▸ Function.update_self ..⟩
    · simp only [State.move, Function.update_of_ne hat]
      rcases he.edge a b hab with ⟨n, hn, hcase⟩ | hacq
      · refine Or.inl ⟨n, hn, ?_⟩
        by_cases hnm : n = m
        · exact Or.inr (Or.inr ⟨t, hnm ▸ Function.update_self ..⟩)
        · simp only [Unsettled, Function.update_of_ne hnm]
          exact hcase.imp_right (fun hu => hu.move _ (hne _ (by simp)) (hne _ (by simp)))
      · exact Or.inr hacq
  · have hat : a ≠ t := by
      rintro rfl
      change Function.update s.phase a (.acquired m) a = .waiting n at ha
      rw [Function.update_self] at ha
      cases ha
    have hnm : n ≠ m := by
      rintro rfl
      change Function.update s.holder n (some t) n = some x at hx
      rw [Function.update_self, Option.some.injEq] at hx
      exact hp (hx ▸ Function.update_self ..)
    change Function.update s.phase t (.acquired m) a = .waiting n at ha
    change Function.update s.holder m (some t) n = some x at hx
    rw [Function.update_of_ne hat] at ha
    rw [Function.update_of_ne hnm] at hx
    exact he.waits a n x ha hx (phase_ne_of_update (hne _ (by simp)) hp)

theorem exact_lockAfter (hd : Disciplined w s) {t m : Nat} {tg : TaskGraph}
    (hacq : s.phase t = .acquired m) (hok : Stored w s (.lockAfter t m))
    (h : s.tg.lockAfter t m = some tg) :
    Exact (s.move tg (.lockAfter t m)) := by
  have hne : ∀ p, p ≠ .acquired m → s.phase t ≠ p := fun p hp ht => hp (ht.symm.trans hacq)
  -- Whoever waits is a thread of the setting.
  have hothers : ∀ x, x ≠ t → s.phase x ≠ .waiting m := fun x hxt hx =>
    hok.1 x (hd.thread x (by rw [hx]; exact nofun)) hxt hx
  -- Exactly the edges of the thread go.
  have hedge : tg.vertices.Wf ∧
      ∀ a b, tg.vertices.Edge a b ↔ s.tg.vertices.Edge a b ∧ a ≠ t := by
    rcases lockAfter_eq_some h with ⟨hfor, -, -, -, rfl⟩ | ⟨k, g, hk, hmin, hdrop, rfl⟩
    · refine ⟨he.wf, fun a b => ⟨fun hab => ⟨hab, ?_⟩, fun hab => hab.1⟩⟩
      rintro rfl
      rcases hok.2.1 b hab with ⟨-, k, hk, -⟩
      exact hfor k hk
    · rcases dropEdge_eq_some he.wf hdrop with ⟨hwf, -, -, hdropped⟩
      refine ⟨hwf, fun a b => (hdropped a b).trans (and_congr_right fun hab => ⟨?_, ?_⟩)⟩
      · rintro hkept rfl
        rcases hok.2.1 b hab with ⟨hv, k', hk', hmin', rfl⟩
        obtain rfl : k = k' := first_unique hk hmin hk' hmin'
        exact hkept ⟨rfl, rfl, hv⟩
      · exact fun hat hc => hat hc.1
  refine ⟨hedge.1, fun a b hab => ?_, fun a n x ha hx hp => ?_⟩
  · rcases (hedge.2 a b).mp hab with ⟨hold, hat⟩
    simp only [State.move, Function.update_of_ne hat]
    rcases he.edge a b hold with ⟨n, hn, hcase⟩ | hacq'
    · have hnm : n ≠ m := by
        rintro rfl
        exact hothers a hat hn
      exact Or.inl ⟨n, hn, hcase.imp_right (fun hu =>
        hu.move _ (hne _ (by simp)) (hne _ (fun hp => hnm (Phase.acquired.inj hp))))⟩
    · exact Or.inr hacq'
  · have hat : a ≠ t := by
      rintro rfl
      change Function.update s.phase a .idle a = .waiting n at ha
      rw [Function.update_self] at ha
      cases ha
    change Function.update s.phase t .idle a = .waiting n at ha
    rw [Function.update_of_ne hat] at ha
    have hnm : n ≠ m := by
      rintro rfl
      exact hothers a hat ha
    exact (hedge.2 a x).mpr ⟨he.waits a n x ha hx
      (phase_ne_of_update (hne _ (fun hp => hnm (Phase.acquired.inj hp))) hp), hat⟩

theorem exact_release {t m : Nat} (hidle : s.phase t = .idle) :
    Exact (s.move s.tg (.release t m)) := by
  have hne : ∀ p, p ≠ .idle → s.phase t ≠ p := fun p hp ht => hp (ht.symm.trans hidle)
  have hno := he.not_edge (t := t) (fun _ => hne _ (by simp)) (fun _ => hne _ (by simp))
  refine ⟨he.wf, fun a b hab => ?_, fun a n x ha hx hp => ?_⟩
  · have hat : a ≠ t := by
      rintro rfl
      exact hno b hab
    simp only [State.move, Function.update_of_ne hat]
    rcases he.edge a b hab with ⟨n, hn, hcase⟩ | hacq
    · refine Or.inl ⟨n, hn, ?_⟩
      -- Edges by the mutex are unsettled from now on, until the hook has run.
      by_cases hnm : n = m
      · subst hnm
        exact Or.inr (Or.inl ⟨Function.update_self .., t, Function.update_self ..⟩)
      · simp only [Unsettled, Function.update_of_ne hnm]
        exact hcase.imp_right (fun hu => hu.move _ (hne _ (by simp)) (hne _ (by simp)))
    · exact Or.inr hacq
  · have hat : a ≠ t := by
      rintro rfl
      change Function.update s.phase a (.released m) a = .waiting n at ha
      rw [Function.update_self] at ha
      cases ha
    -- Nobody holds the mutex any more.
    have hnm : n ≠ m := by
      rintro rfl
      change Function.update s.holder n none n = some x at hx
      rw [Function.update_self] at hx
      cases hx
    change Function.update s.phase t (.released m) a = .waiting n at ha
    change Function.update s.holder m none n = some x at hx
    rw [Function.update_of_ne hat] at ha
    rw [Function.update_of_ne hnm] at hx
    exact he.waits a n x ha hx (phase_ne_of_update (hne _ (by simp)) hp)

theorem exact_unlockAfter (hd : Disciplined w s) {t m : Nat} {tg : TaskGraph}
    (hrel : s.phase t = .released m) (hok : Stored w s (.unlockAfter t m))
    (h : s.tg.unlockAfter t m = some tg) :
    Exact (s.move tg (.unlockAfter t m)) := by
  have hne : ∀ p, p ≠ .released m → s.phase t ≠ p := fun p hp ht => hp (ht.symm.trans hrel)
  have hno := he.not_edge (t := t) (fun _ => hne _ (by simp)) (fun _ => hne _ (by simp))
  -- The hook at most hides a slot whose edges are gone.
  have hedge : tg.vertices.Wf ∧ ∀ a b, tg.vertices.Edge a b ↔ s.tg.vertices.Edge a b := by
    rcases unlockAfter_eq_some h with ⟨k, hk, hmin, ⟨-, rfl⟩ | ⟨hz, rfl⟩⟩
    · exact ⟨he.wf, fun _ _ => Iff.rfl⟩
    · exact ⟨wf_hide he.wf, edge_hide (hok.2.2 k hk hmin hz)⟩
  refine ⟨hedge.1, fun a b hab => ?_, fun a n x ha hx hp => ?_⟩
  · have hold := (hedge.2 a b).mp hab
    have hat : a ≠ t := by
      rintro rfl
      exact hno b hold
    simp only [State.move, Function.update_of_ne hat]
    rcases he.edge a b hold with ⟨n, hn, hh | hu⟩ | hacq
    · exact Or.inl ⟨n, hn, Or.inl hh⟩
    · refine Or.inl ⟨n, hn, Or.inr ?_⟩
      -- An edge by this mutex was unsettled while the hook was outstanding.
      by_cases hnm : n = m
      · subst hnm
        rcases hu with ⟨hf, -⟩ | hx
        · rcases hok.2.1 hf with ⟨x, -, hxt, hx⟩ | hnone
          · exact Or.inl ⟨hf, x, (Function.update_of_ne hxt _ _).trans hx⟩
          · have ha := hd.thread a (by rw [hn]; exact nofun)
            exact absurd hold (hnone a ha hn b)
        · exact Or.inr (exists_update_phase _ (hne _ (by simp)) hx)
      · exact hu.move _ (hne _ (fun hp => hnm (Phase.released.inj hp))) (hne _ (by simp))
    · exact Or.inr hacq
  · have hat : a ≠ t := by
      rintro rfl
      change Function.update s.phase a .idle a = .waiting n at ha
      rw [Function.update_self] at ha
      cases ha
    change Function.update s.phase t .idle a = .waiting n at ha
    rw [Function.update_of_ne hat] at ha
    exact (hedge.2 a x).mpr (he.waits a n x ha hx (phase_ne_of_update (hne _ (by simp)) hp))

end Steps

/-- Every step that meets the condition keeps the invariant. -/
theorem exact_step {w : Setting} {s s' : State} {a : Action} (hd : Disciplined w s)
    (he : Exact s) (hok : Stored w s a) (hstep : step w s a = some s') : Exact s' := by
  rcases step_eq_some hstep with ⟨hen, tg, htg, rfl⟩
  cases a with
  | lockBefore t m => exact exact_lockBefore he hen.2.2 hok htg
  | acquire t m =>
      obtain rfl : s.tg = tg := Option.some.inj htg
      exact exact_acquire he hen.1
  | lockAfter t m => exact exact_lockAfter he hd hen hok htg
  | release t m =>
      obtain rfl : s.tg = tg := Option.some.inj htg
      exact exact_release he hen.1
  | unlockAfter t m => exact exact_unlockAfter he hd hen hok htg

/-- A hook that meets the condition keeps to the arrays. -/
theorem hook_placed {w : Setting} {s : State} (hd : Disciplined w s)
    (hp : Placed w.threads s.tg) {a : Action} (hen : Enabled w s a) (hok : Stored w s a) :
    ∃ tg, hook s.tg a = some tg ∧ Placed w.threads tg := by
  have hne : ∀ m ∈ w.mutexes, m ≠ 0 := by
    rintro m hm rfl
    exact w.mutexes_ne hm
  cases a with
  | lockBefore t m =>
      rcases lockBefore_total w.threads_le hp (hne m hen.2.1) hen.1 hok.2.2 with ⟨tg, htg, hp', -⟩
      exact ⟨tg, htg, hp'⟩
  | acquire t m => exact ⟨s.tg, rfl, hp⟩
  | lockAfter t m =>
      have hacq : s.phase t = .acquired m := hen
      exact lockAfter_total hp (hne m (hd.mutex t m (Or.inr (Or.inl hacq))))
        (hd.thread t (by rw [hacq]; exact nofun)) hok.2.2
  | release t m => exact ⟨s.tg, rfl, hp⟩
  | unlockAfter t m =>
      have hrel : s.phase t = .released m := hen
      exact unlockAfter_total (t := t) hp (hne m (hd.mutex t m (Or.inr (Or.inr hrel)))) hok.1

theorem reachable_exact {w : Setting} {s : State}
    (h : ((detector w).restrict (Stored w)).Reachable s) :
    Disciplined w s ∧ Placed w.threads s.tg ∧ Exact s := by
  refine h.invariant (fun s => Disciplined w s ∧ Placed w.threads s.tg ∧ Exact s) ?_ ?_
  · exact fun s hs => ⟨disciplined_initial w hs, (fits_initial w hs).placed, exact_initial hs⟩
  · rintro s a s' ⟨hd, hp, he⟩ ⟨hok, hst⟩
    refine ⟨disciplined_step hd hst, ?_, exact_step hd he hok hst⟩
    rcases step_eq_some hst with ⟨hen, tg, htg, rfl⟩
    rcases hook_placed hd hp hen hok with ⟨tg', htg', hp'⟩
    obtain rfl : tg' = tg := Option.some.inj (htg'.symm.trans htg)
    cases a <;> exact hp'

/-- In the runs whose steps all meet the condition no hook leaves its arrays,
    and the stored edges are the wait-for relation whenever no hook is
    outstanding. -/
theorem waitGraph_exact (w : Setting) (s : State)
    (h : ((detector w).restrict (Stored w)).Reachable s) :
    (∀ a, Enabled w s a → Stored w s a → ∃ tg, hook s.tg a = some tg) ∧
      (Quiescent s → ∀ t x, s.tg.vertices.Edge t x ↔ WaitsFor s t x) := by
  rcases reachable_exact h with ⟨hd, hp, he⟩
  refine ⟨fun a hen hok => ?_, fun hq t x => ⟨fun hedge => ?_, ?_⟩⟩
  · rcases hook_placed hd hp hen hok with ⟨tg, htg, -⟩
    exact ⟨tg, htg⟩
  · rcases he.edge t x hedge with ⟨m, hm, hh | ⟨-, y, hy⟩ | ⟨y, hy⟩⟩ | ⟨m, hm⟩
    · exact ⟨m, hm, hh⟩
    · exact absurd hy (hq y m).2
    · exact absurd hy (hq y m).1
    · exact absurd hm (hq t m).1
  · rintro ⟨m, hm, hh⟩
    exact he.waits t m x hm hh (hq x m).1

/-- A mutex is handed over to the thread that waited for it, which then waits
    for the other mutex of the thread it got it from. -/
theorem waitGraph_exact_handOver : ∃ s,
    System.exec (step twoMutexes) start (lock 1 2 ++ lock 1 1 ++ [.lockBefore 2 1, .release 1 1,
      .acquire 2 1, .lockAfter 2 1, .unlockAfter 1 1, .lockBefore 2 2]) = some s ∧
      WaitsFor s 2 1 ∧ ∀ t x, s.tg.vertices.Edge t x ↔ WaitsFor s t x := by
  rcases System.exists_exec
    (System.guarded (fun s a => decide (Stored twoMutexes s a)) (step twoMutexes))
    start (lock 1 2 ++ lock 1 1 ++ [.lockBefore 2 1, .release 1 1,
      .acquire 2 1, .lockAfter 2 1, .unlockAfter 1 1, .lockBefore 2 2])
    (fun s => s.phase 1 == .idle && s.phase 2 == .waiting 2 && s.holder 2 == some 1)
    (by decide +kernel) with ⟨s, hs, hp⟩
  simp only [Bool.and_eq_true, beq_iff_eq] at hp
  have hreach : ((detector twoMutexes).restrict (Stored twoMutexes)).Reachable s :=
    System.restrict_reachable_of_guarded (fun _ _ h => of_decide_eq_true h) _ start s
      (.init start initial_start) hs
  have hq : Quiescent s := (reachable_disciplined hreach.of_restrict).quiescent (by
    intro t ht
    rcases Finset.mem_insert.mp ht with rfl | ht
    · exact Or.inl hp.1.1
    · exact Or.inr ⟨2, Finset.mem_singleton.mp ht ▸ hp.1.2⟩)
  exact ⟨s, System.exec_of_guarded hs, ⟨2, hp.1.2, hp.2⟩,
    (waitGraph_exact twoMutexes s hreach).2 hq⟩

/-- A thread waits while the holder unlocks: its edge to the holder stays,
    although nobody holds the mutex. -/
theorem waitGraph_stale_edge : ∃ s,
    System.exec (step twoThreads) start (lock 1 1 ++ [.lockBefore 2 1] ++ unlock 1 1) = some s ∧
      Quiescent s ∧ s.tg.vertices.Edge 2 1 ∧ ¬ WaitsFor s 2 1 := by
  rcases System.exists_exec (step twoThreads) start (lock 1 1 ++ [.lockBefore 2 1] ++ unlock 1 1)
    (fun s => s.phase 1 == .idle && s.phase 2 == .waiting 1 && s.holder 1 == none &&
      s.tg.vertices.num == 2 && (s.tg.vertices.list.cell 0).node == process 2 &&
      (s.tg.vertices.list.cell 0).next == [process 1]) (by rfl) with ⟨s, hs, hp⟩
  simp only [Bool.and_eq_true, beq_iff_eq] at hp
  rcases hp with ⟨⟨⟨⟨⟨hidle, hwait⟩, hfree⟩, hnum⟩, hnode⟩, hnext⟩
  have hreach : (detector twoThreads).Reachable s :=
    System.reachable_of_exec _ start s (.init start initial_start) hs
  refine ⟨s, hs, (reachable_disciplined hreach).quiescent ?_, ?_, ?_⟩
  · intro t ht
    rcases Finset.mem_insert.mp ht with rfl | ht
    · exact Or.inl hidle
    · exact Or.inr ⟨1, Finset.mem_singleton.mp ht ▸ hwait⟩
  · exact ⟨0, by omega, by rw [hnode]; rfl, process 1, by rw [hnext]; exact List.mem_cons_self,
      rfl⟩
  · rintro ⟨m, hm, hh⟩
    obtain rfl : 1 = m := Phase.waiting.inj (hwait.symm.trans hm)
    rw [hfree] at hh
    cases hh

end DeadlockDetector

end BlogSample
