import BlogSample.DeadlockDetector.Threads

/-!
# The Lock Table and the Holders

When the lock table says who holds what. `unlock_after` is the only hook that
can make it lie: it decrements `lockidx` although the slot it clears need not
be the last one, it leaves the slot as it is when a thread is waiting, and it
runs after the mutex has been given away, when the slot may already be the
next holder's.

## Main definitions

* `Tracks`: The releases that do none of this.
* `Registered`: The invariant of the runs without the others.

## Theorems

* `registered_step`: The invariant is kept.
* `lockTable_tracks`: In such runs the lock table is right.
* `lockTable_hides_slot`: A release out of order hides the slot of a mutex
  that is still held.
-/

namespace BlogSample

namespace DeadlockDetector

open Transition TaskGraph LockList

/-- A step that keeps the lock table right. At `unlock_after` the mutex has a
    slot. If the slot is to be cleared, it is the last one, and no other
    thread has taken it over; if it is to stay, another thread already holds
    the mutex. -/
def Tracks (s : State) : Action → Prop
  | .unlockAfter _ m => ∃ k : Nat, s.tg.locks.IsFor k m ∧
      ((s.tg.locks.locklist.cell k).degress = 0 → (k : Int) + 1 = s.tg.locks.lockidx ∧
        ∀ h, s.holder m = some h → s.phase h = .acquired m) ∧
      ((s.tg.locks.locklist.cell k).degress ≠ 0 → s.holder m ≠ none)
  | _ => True

instance (s : State) : DecidablePred (Tracks s)
  | .lockBefore _ _ => .isTrue trivial
  | .acquire _ _ => .isTrue trivial
  | .lockAfter _ _ => .isTrue trivial
  | .release _ _ => .isTrue trivial
  | .unlockAfter _ m => inferInstanceAs (Decidable (∃ k : Nat, s.tg.locks.IsFor k m ∧
      (_ → _ ∧ ∀ h ∈ s.holder m, s.phase h = .acquired m) ∧ _))

/-- The slots are those of distinct mutexes, every thread that has run
    `lock_after` has the slot of its mutex, and the slot of a free mutex waits
    for an `unlock_after`. -/
structure Registered (w : Setting) (s : State) : Prop where
  mutex : ∀ i m, s.tg.locks.IsFor i m → m ∈ w.mutexes
  unique : ∀ i j m, s.tg.locks.IsFor i m → s.tg.locks.IsFor j m → i = j
  holder : ∀ m h, s.holder m = some h → s.phase h ≠ .acquired m → s.tg.locks.Names m h
  free : ∀ i m, s.tg.locks.IsFor i m → s.holder m = none → ∃ t, s.phase t = .released m

theorem registered_initial (w : Setting) {s : State} (h : Initial s) : Registered w s := by
  have hno : ∀ i m, ¬ s.tg.locks.IsFor i m := by
    rintro i m ⟨hi, -⟩
    rw [h.2.1] at hi
    omega
  refine ⟨fun i m hi => absurd hi (hno i m), fun i j m hi => absurd hi (hno i m),
    fun m t ht => ?_, fun i m hi => absurd hi (hno i m)⟩
  rw [h.2.2.2 m] at ht
  cases ht

/-! ### Slots after a write -/

section Slots

variable {l : LockList} {k m : Nat} (hk : l.IsFor k m) (t : Nat) (d : Int)
include hk

/-- Handing a slot over does not change which mutex it is for. -/
theorem isFor_handOver (i n : Nat) :
    (LockList.mk (l.locklist.set k ⟨t, m, d⟩) l.lockidx).IsFor i n ↔ l.IsFor i n := by
  by_cases hi : i = k
  · simp only [IsFor, hi, CArray.cell_set_self, hk.2]
  · simp only [IsFor, CArray.cell_set_of_ne _ hi]

/-- The slots of the other mutexes name whom they named. -/
theorem names_handOver {n : Nat} (hn : n ≠ m) (x : Nat) :
    (LockList.mk (l.locklist.set k ⟨t, m, d⟩) l.lockidx).Names n x ↔ l.Names n x := by
  refine exists_congr fun i => ?_
  rw [isFor_handOver hk]
  refine and_congr_right fun hi => ?_
  -- A slot of another mutex is another slot.
  have hik : i ≠ k := by
    rintro rfl
    exact hn (hi.2.symm.trans hk.2)
  rw [CArray.cell_set_of_ne _ hik]

/-- Clearing the last slot takes it away. -/
theorem isFor_clear (hlast : (k : Int) + 1 = l.lockidx) (i n : Nat) :
    (LockList.mk (l.locklist.set k ⟨0, 0, d⟩) (l.lockidx - 1)).IsFor i n ↔
      l.IsFor i n ∧ i ≠ k := by
  by_cases hi : i = k
  · subst hi
    refine iff_of_false ?_ (fun h => h.2 rfl)
    rintro ⟨h, -⟩
    have : (i : Int) < l.lockidx - 1 := h
    omega
  · simp only [IsFor, CArray.cell_set_of_ne _ hi]
    refine ⟨fun h => ⟨⟨by omega, h.2⟩, hi⟩, fun h => ⟨by omega, h.1.2⟩⟩

end Slots

/-- A new slot behind the others. -/
theorem isFor_append {l : LockList} {k : Nat} (hk : (k : Int) = l.lockidx) (t m : Nat) (d : Int)
    (i n : Nat) :
    (LockList.mk (l.locklist.set k ⟨t, m, d⟩) (l.lockidx + 1)).IsFor i n ↔
      l.IsFor i n ∨ (i = k ∧ n = m) := by
  -- The slot at `lockidx` comes into view, for the new mutex.
  by_cases hi : i = k
  · subst hi
    simp only [IsFor, CArray.cell_set_self, true_and]
    refine ⟨fun h => Or.inr h.2.symm, ?_⟩
    rintro (h | rfl)
    · omega
    · exact ⟨by omega, rfl⟩
  · simp only [IsFor, CArray.cell_set_of_ne _ hi, hi, false_and, or_false]
    refine and_congr_left' ⟨fun h => by omega, fun h => by omega⟩

/-! ### The invariant, step by step -/

section Steps

variable {w : Setting} {s : State} (hd : Disciplined w s) (hr : Registered w s)
include hr

/-- A step that leaves the slots as they are keeps the invariant, when the
    threads that have a slot to have still have it. -/
theorem Registered.of_locks {s' : State}
    (hfor : ∀ i m, s'.tg.locks.IsFor i m ↔ s.tg.locks.IsFor i m)
    (hholder : ∀ m h, s'.holder m = some h → s'.phase h ≠ .acquired m → s'.tg.locks.Names m h)
    (hfree : ∀ i m, s.tg.locks.IsFor i m → s'.holder m = none → ∃ t, s'.phase t = .released m) :
    Registered w s' where
  mutex := fun i m hi => hr.mutex i m ((hfor i m).mp hi)
  unique := fun i j m hi hj => hr.unique i j m ((hfor i m).mp hi) ((hfor j m).mp hj)
  holder := hholder
  free := fun i m hi => hfree i m ((hfor i m).mp hi)

theorem registered_lockBefore {t m : Nat} {tg : TaskGraph} (hidle : s.phase t = .idle)
    (h : s.tg.lockBefore t m = some tg) : Registered w (s.move tg (.lockBefore t m)) := by
  have hne : ∀ p, p ≠ .idle → s.phase t ≠ p := fun p hp ht => hp (ht.symm.trans hidle)
  refine hr.of_locks (lockBefore_isFor h) (fun k x hx hp => ?_) (fun i k hi hfree => ?_)
  · exact (lockBefore_names h k x).mpr
      (hr.holder k x hx (phase_ne_of_update (hne _ (by simp)) hp))
  · exact exists_update_phase _ (hne _ (by simp)) (hr.free i k hi hfree)

theorem registered_acquire {t m : Nat} (hwait : s.phase t = .waiting m) :
    Registered w (s.move s.tg (.acquire t m)) := by
  have hne : ∀ p, p ≠ .waiting m → s.phase t ≠ p := fun p hp ht => hp (ht.symm.trans hwait)
  refine hr.of_locks (fun _ _ => Iff.rfl) (fun k x hx hp => ?_) (fun i k hi hfree => ?_)
  · by_cases hkm : k = m
    -- The new holder still has its `lock_after` to run.
    · subst hkm
      change Function.update s.holder k (some t) k = some x at hx
      rw [Function.update_self, Option.some.injEq] at hx
      exact absurd (hx ▸ Function.update_self ..) hp
    · change Function.update s.holder m (some t) k = some x at hx
      rw [Function.update_of_ne hkm] at hx
      exact hr.holder k x hx (phase_ne_of_update (hne _ (by simp)) hp)
  -- The mutex that is acquired is no longer free.
  · have hkm : k ≠ m := by
      rintro rfl
      change Function.update s.holder k (some t) k = none at hfree
      rw [Function.update_self] at hfree
      cases hfree
    change Function.update s.holder m (some t) k = none at hfree
    rw [Function.update_of_ne hkm] at hfree
    exact exists_update_phase _ (hne _ (by simp)) (hr.free i k hi hfree)

theorem registered_release {t m : Nat} (hidle : s.phase t = .idle) :
    Registered w (s.move s.tg (.release t m)) := by
  have hne : ∀ p, p ≠ .idle → s.phase t ≠ p := fun p hp ht => hp (ht.symm.trans hidle)
  refine hr.of_locks (fun _ _ => Iff.rfl) (fun k x hx hp => ?_) (fun i k hi hfree => ?_)
  -- The mutex that is released has no holder.
  · have hkm : k ≠ m := by
      rintro rfl
      change Function.update s.holder k none k = some x at hx
      rw [Function.update_self] at hx
      cases hx
    change Function.update s.holder m none k = some x at hx
    rw [Function.update_of_ne hkm] at hx
    exact hr.holder k x hx (phase_ne_of_update (hne _ (by simp)) hp)
  · by_cases hkm : k = m
    -- Its slot waits for the `unlock_after` of this thread.
    · exact ⟨t, hkm ▸ Function.update_self ..⟩
    · change Function.update s.holder m none k = none at hfree
      rw [Function.update_of_ne hkm] at hfree
      exact exists_update_phase _ (hne _ (by simp)) (hr.free i k hi hfree)

theorem registered_unlockAfter {t m : Nat} {tg : TaskGraph} (hrel : s.phase t = .released m)
    (hok : Tracks s (.unlockAfter t m)) (h : s.tg.unlockAfter t m = some tg) :
    Registered w (s.move tg (.unlockAfter t m)) := by
  have hne : ∀ p, p ≠ .released m → s.phase t ≠ p := fun p hp ht => hp (ht.symm.trans hrel)
  -- The other threads keep their phases.
  have hphase : ∀ k x, (s.move tg (.unlockAfter t m)).phase x ≠ .acquired k →
      s.phase x ≠ .acquired k := fun k x => phase_ne_of_update (hne _ (by simp))
  have hfree : ∀ i k, k ≠ m → s.tg.locks.IsFor i k → s.holder k = none →
      ∃ x, (s.move tg (.unlockAfter t m)).phase x = .released k := fun i k hkm hi hf =>
    exists_update_phase _ (hne _ (fun hp => hkm (Phase.released.inj hp))) (hr.free i k hi hf)
  rcases hok with ⟨k', hk', hzero, hcount⟩
  rcases unlockAfter_eq_some h with ⟨k, hk, -, hcase⟩
  obtain rfl : k = k' := hr.unique k k' m hk hk'
  rcases hcase with ⟨hcounted, rfl⟩ | ⟨hz, rfl⟩
  -- Somebody is counted in the slot, so it stays as it is.
  · refine hr.of_locks (fun _ _ => Iff.rfl) (fun n x hx hp => hr.holder n x hx (hphase n x hp))
      (fun i n hi hf => ?_)
    by_cases hnm : n = m
    · exact absurd (hnm ▸ hf) (hcount hcounted)
    · exact hfree i n hnm hi hf
  -- The slot is the last one and is cleared.
  · rcases hzero hz with ⟨hlast, hpending⟩
    have hfor := isFor_clear hk (s.tg.locks.locklist.cell k).degress hlast
    refine ⟨fun i n hi => hr.mutex i n ((hfor i n).mp hi).1,
      fun i j n hi hj => hr.unique i j n ((hfor i n).mp hi).1 ((hfor j n).mp hj).1,
      fun n x hx hp => ?_, fun i n hi hf => ?_⟩
    · have hnm : n ≠ m := by
        rintro rfl
        exact hphase n x hp (hpending x hx)
      rcases hr.holder n x hx (hphase n x hp) with ⟨i, hi, hid⟩
      have hik : i ≠ k := by
        rintro rfl
        exact hnm (hi.2.symm.trans hk.2)
      exact ⟨i, (hfor i n).mpr ⟨hi, hik⟩, by simp only [State.move,
        CArray.cell_set_of_ne _ hik, hid]⟩
    · rcases (hfor i n).mp hi with ⟨hi', hik⟩
      refine hfree i n ?_ hi' hf
      rintro rfl
      exact hik (hr.unique i k n hi' hk)

include hd

theorem registered_lockAfter {t m : Nat} {tg : TaskGraph} (hacq : s.phase t = .acquired m)
    (h : s.tg.lockAfter t m = some tg) : Registered w (s.move tg (.lockAfter t m)) := by
  have hheld : s.holder m = some t := hd.acquired t m hacq
  have hm : m ∈ w.mutexes := hd.mutex t m (Or.inr (Or.inl hacq))
  have hne : ∀ p, p ≠ .acquired m → s.phase t ≠ p := fun p hp ht => hp (ht.symm.trans hacq)
  -- The holders of the other mutexes, and the threads that have released one.
  have hother : ∀ k x, k ≠ m → s.holder k = some x →
      (s.move tg (.lockAfter t m)).phase x ≠ .acquired k → s.tg.locks.Names k x :=
    fun k x hkm hx hp => hr.holder k x hx
      (phase_ne_of_update (hne _ (fun hp => hkm (Phase.acquired.inj hp))) hp)
  have hfree : ∀ i k, s.tg.locks.IsFor i k → s.holder k = none →
      ∃ x, (s.move tg (.lockAfter t m)).phase x = .released k := fun i k hi hf =>
    exists_update_phase _ (hne _ (by simp)) (hr.free i k hi hf)
  rcases lockAfter_eq_some h with ⟨hno, k, -, hk, rfl⟩ | ⟨k, g, hk, -, -, rfl⟩
  -- There are no empty slots, so the new one is the last.
  · have hlast : (k : Int) = s.tg.locks.lockidx := by
      rcases hk with hk | hk
      · exact absurd (hr.mutex k 0 hk) w.mutexes_ne
      · exact hk.1
    have hfor := isFor_append hlast t m (s.tg.locks.locklist.cell k).degress
    refine ⟨fun i n hi => ?_, fun i j n hi hj => ?_, fun n x hx hp => ?_, fun i n hi hf => ?_⟩
    · rcases (hfor i n).mp hi with hi | ⟨-, rfl⟩
      · exact hr.mutex i n hi
      · exact hm
    · rcases (hfor i n).mp hi with hi' | ⟨rfl, rfl⟩
      · rcases (hfor j n).mp hj with hj' | ⟨rfl, rfl⟩
        · exact hr.unique i j n hi' hj'
        · exact absurd hi' (hno i)
      · rcases (hfor j n).mp hj with hj' | ⟨rfl, -⟩
        · exact absurd hj' (hno j)
        · rfl
    · by_cases hnm : n = m
      · subst hnm
        obtain rfl : t = x := Option.some.inj (hheld.symm.trans hx)
        exact ⟨k, (hfor k n).mpr (Or.inr ⟨rfl, rfl⟩), by simp only [State.move,
          CArray.cell_set_self]⟩
      · rcases hother n x hnm hx hp with ⟨i, hi, hid⟩
        have hik : i ≠ k := by
          rintro rfl
          have := hi.1
          omega
        exact ⟨i, (hfor i n).mpr (Or.inl hi), by simp only [State.move,
          CArray.cell_set_of_ne _ hik, hid]⟩
    · rcases (hfor i n).mp hi with hi | ⟨-, rfl⟩
      · exact hfree i n hi hf
      · rw [State.move, hheld] at hf
        cases hf
  -- The slot of the mutex now names the thread.
  · have hfor := isFor_handOver hk t ((s.tg.locks.locklist.cell k).degress - 1)
    refine hr.of_locks hfor (fun n x hx hp => ?_) hfree
    by_cases hnm : n = m
    · subst hnm
      obtain rfl : t = x := Option.some.inj (hheld.symm.trans hx)
      exact ⟨k, (hfor k n).mpr hk, by simp only [State.move, CArray.cell_set_self]⟩
    · exact (names_handOver hk t _ hnm x).mpr (hother n x hnm hx hp)

end Steps

/-- Every step that meets the condition keeps the invariant. -/
theorem registered_step {w : Setting} {s s' : State} {a : Action} (hd : Disciplined w s)
    (hr : Registered w s) (hok : Tracks s a) (hstep : step w s a = some s') :
    Registered w s' := by
  rcases step_eq_some hstep with ⟨hen, tg, htg, rfl⟩
  cases a with
  | lockBefore t m => exact registered_lockBefore hr hen.2.2 htg
  | acquire t m =>
      obtain rfl : s.tg = tg := Option.some.inj htg
      exact registered_acquire hr hen.1
  | lockAfter t m => exact registered_lockAfter hd hr hen htg
  | release t m =>
      obtain rfl : s.tg = tg := Option.some.inj htg
      exact registered_release hr hen.1
  | unlockAfter t m => exact registered_unlockAfter hr hen hok htg

theorem reachable_registered {w : Setting} {s : State}
    (h : ((detector w).restrict Tracks).Reachable s) : Disciplined w s ∧ Registered w s := by
  refine h.invariant (fun s => Disciplined w s ∧ Registered w s) ?_ ?_
  · exact fun s hs => ⟨disciplined_initial w hs, registered_initial w hs⟩
  · rintro s a s' ⟨hd, hr⟩ ⟨hok, hst⟩
    exact ⟨disciplined_step hd hst, registered_step hd hr hok hst⟩

/-- The lock table is right: a mutex is held by a thread when a slot says so,
    and no mutex has two slots. -/
def LockTableRight (w : Setting) (s : State) : Prop :=
  (∀ m ∈ w.mutexes, ∀ t, s.holder m = some t ↔ s.tg.locks.Names m t) ∧
    ∀ m ∈ w.mutexes, ∀ i j, s.tg.locks.IsFor i m → s.tg.locks.IsFor j m → i = j

/-- In the runs whose steps all meet the condition, the lock table is right
    whenever no hook is outstanding. -/
theorem lockTable_tracks (w : Setting) (s : State)
    (h : ((detector w).restrict Tracks).Reachable s) (hq : Quiescent s) :
    LockTableRight w s := by
  rcases reachable_registered h with ⟨-, hr⟩
  refine ⟨fun m _ t => ⟨fun ht => hr.holder m t ht (hq t m).1, ?_⟩,
    fun m _ i j hi hj => hr.unique i j m hi hj⟩
  rintro ⟨i, hi, hid⟩
  -- A slot of a free mutex would wait for an `unlock_after`, and the slot of
  -- a held one names its holder.
  cases hh : s.holder m with
  | none =>
      rcases hr.free i m hi hh with ⟨x, hx⟩
      exact absurd hx (hq x m).2
  | some x =>
      rcases hr.holder m x hh (hq x m).1 with ⟨j, hj, hjd⟩
      rw [← hid, ← hjd, hr.unique i j m hi hj]

/-- A thread locks two mutexes and unlocks the second. -/
theorem lockTable_tracks_unlock : ∃ s,
    System.exec (step oneThread) start (lock 1 1 ++ lock 1 2 ++ unlock 1 2) = some s ∧
      s.holder 1 = some 1 ∧ s.holder 2 = none ∧ LockTableRight oneThread s := by
  rcases System.exists_exec (System.guarded (fun s a => decide (Tracks s a)) (step oneThread))
    start (lock 1 1 ++ lock 1 2 ++ unlock 1 2)
    (fun s => s.holder 1 == some 1 && s.holder 2 == none && s.phase 1 == .idle)
    (by decide +kernel) with ⟨s, hs, hp⟩
  simp only [Bool.and_eq_true, beq_iff_eq] at hp
  have hreach : ((detector oneThread).restrict Tracks).Reachable s :=
    System.restrict_reachable_of_guarded (fun _ _ h => of_decide_eq_true h) _ start s
      (.init start initial_start) hs
  have hq : Quiescent s := (reachable_disciplined hreach.of_restrict).quiescent (fun t ht =>
    Or.inl (Finset.mem_singleton.mp ht ▸ hp.2))
  exact ⟨s, System.exec_of_guarded hs, hp.1.1, hp.1.2, lockTable_tracks oneThread s hreach hq⟩

/-- Unlocking the first of two mutexes clears its slot and hides the other
    one, which is still held. -/
theorem lockTable_hides_slot :
    ∃ s, System.exec (step oneThread) start (lock 1 1 ++ lock 1 2 ++ unlock 1 1) = some s ∧
      Quiescent s ∧ ¬ LockTableRight oneThread s := by
  rcases System.exists_exec (step oneThread) start (lock 1 1 ++ lock 1 2 ++ unlock 1 1)
    (fun s => s.holder 2 == some 1 && s.phase 1 == .idle && s.tg.locks.lockidx == 1 &&
      (s.tg.locks.locklist.cell 0).lockId == 0) (by rfl) with ⟨s, hs, hp⟩
  simp only [Bool.and_eq_true, beq_iff_eq] at hp
  rcases hp with ⟨⟨⟨hheld, hidle⟩, hidx⟩, hslot⟩
  have hreach : (detector oneThread).Reachable s :=
    System.reachable_of_exec _ start s (.init start initial_start) hs
  have hd := reachable_disciplined hreach
  refine ⟨s, hs, hd.quiescent (fun t ht => Or.inl (Finset.mem_singleton.mp ht ▸ hidle)), ?_⟩
  -- The only slot in view is empty, so none names the holder.
  rintro ⟨hiff, -⟩
  rcases (hiff 2 (by decide) 1).mp hheld with ⟨i, ⟨hi, hm⟩, -⟩
  obtain rfl : i = 0 := by omega
  rw [hslot] at hm
  exact absurd hm (by decide)

end DeadlockDetector

end BlogSample
