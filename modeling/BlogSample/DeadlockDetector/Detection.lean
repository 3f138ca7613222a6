import BlogSample.DeadlockDetector.Breaker
import BlogSample.DeadlockDetector.Indices
import BlogSample.DeadlockDetector.Ownership
import BlogSample.DeadlockDetector.WaitFor

/-!
# Detecting a Deadlock

The hooks, the graph and the check together, up to the first unlock. Where no
thread asks for a mutex that another one is just about to get, the edges are
the wait-for relation at any time, not only when no hook is outstanding. Each
thread waits for one other at most, so two edges that lead to the same vertex
and can be reached from one vertex are on a cycle, and the check does not
mistake them for one that is not there.

So what the check reports is that some threads wait for each other in a
circle. None of them will ever move again, whatever the others do, with or
without unlocks.

## Main definitions

* `Patient`: A step that asks for no mutex that is about to be acquired.
* `Faithful`: The invariant of the runs of such steps.

## Theorems

* `faithful_step`: The invariant is kept.
* `cyclic_iff`: Cycles of vertices and cycles of threads.
* `circle_lasts`: Threads that wait in a circle stay where they are.
* `threadRoutine_detects`: What the check reports.
-/

namespace BlogSample

namespace DeadlockDetector

open Transition TaskGraph VertexList LockList DepthFirst

/-- A step before the first unlock that asks for no mutex of the thread
    itself, none that its holder has `lock_after` to run for, and no free one
    that another thread has asked for. -/
def Patient (w : Setting) (s : State) : Action → Prop
  | .lockBefore t m =>
      match s.holder m with
      | none => ∀ x ∈ w.threads, s.phase x ≠ .waiting m
      | some h => h ≠ t ∧ s.phase h ≠ .acquired m
  | .release _ _ => False
  | _ => True

instance (w : Setting) (s : State) : DecidablePred (Patient w s)
  | .lockBefore t m =>
      match h : s.holder m with
      | none =>
          decidable_of_iff (∀ x ∈ w.threads, s.phase x ≠ .waiting m) (by simp only [Patient, h])
      | some k => decidable_of_iff (k ≠ t ∧ s.phase k ≠ .acquired m) (by simp only [Patient, h])
  | .acquire _ _ => inferInstanceAs (Decidable True)
  | .lockAfter _ _ => inferInstanceAs (Decidable True)
  | .release _ _ => inferInstanceAs (Decidable False)
  | .unlockAfter _ _ => inferInstanceAs (Decidable True)

/-- No mutex has been released, the slots are for the mutexes whose holders
    have run `lock_after`, no two threads wait for the same free mutex, nobody
    waits for a mutex that has just been acquired, and the edges are the
    wait-for relation. -/
structure Faithful (w : Setting) (s : State) : Prop where
  disciplined : Disciplined w s
  fits : Fits w.threads s.tg
  registered : Registered w s
  unreleased : ∀ t m, s.phase t ≠ .released m
  slot : ∀ i m, s.tg.locks.IsFor i m → ∃ x, s.holder m = some x ∧ s.phase x ≠ .acquired m
  alone : ∀ x y m, s.phase x = .waiting m → s.phase y = .waiting m → s.holder m = none → x = y
  fresh : ∀ x y m, s.phase x = .acquired m → s.phase y ≠ .waiting m
  edge : ∀ t h, s.tg.vertices.Edge t h ↔ WaitsFor s t h

theorem faithful_initial (w : Setting) {s : State} (h : Initial s) : Faithful w s := by
  have hidle : ∀ {t p}, s.phase t = p → p = .idle := fun hp => hp.symm.trans (h.2.2.1 _)
  refine ⟨disciplined_initial w h, fits_initial w h, registered_initial w h, fun t m hp => ?_,
    fun i m hi => ?_, fun x y m hx => ?_, fun x y m hx => ?_, fun t x => ?_⟩
  · cases hidle hp
  · exact absurd hi.1 (by rw [h.2.1]; omega)
  · cases hidle hx
  · cases hidle hx
  · constructor
    · rintro ⟨i, hi, -⟩
      rw [h.1] at hi
      omega
    · rintro ⟨m, hm, -⟩
      cases hidle hm

/-- A thread in a phase after a step has come there by it, or was there. -/
theorem phase_update {f : Nat → Phase} {t x : Nat} {q p : Phase}
    (h : Function.update f t q x = p) : (x = t ∧ q = p) ∨ (x ≠ t ∧ f x = p) := by
  by_cases hx : x = t
  · rw [hx, Function.update_self] at h
    exact .inl ⟨hx, h⟩
  · rw [Function.update_of_ne hx] at h
    exact .inr ⟨hx, h⟩

/-- The holder of a mutex after a step is the one it got by it, or had. -/
theorem holder_update {f : Nat → Option Nat} {m n : Nat} {q p : Option Nat}
    (h : Function.update f m q n = p) : (n = m ∧ q = p) ∨ (n ≠ m ∧ f n = p) := by
  by_cases hn : n = m
  · rw [hn, Function.update_self] at h
    exact .inl ⟨hn, h⟩
  · rw [Function.update_of_ne hn] at h
    exact .inr ⟨hn, h⟩

section Steps

variable {w : Setting} {s : State} (hs : Faithful w s)
include hs

/-- The lock table names the holders that have run `lock_after`. -/
theorem Faithful.names_iff (m x : Nat) :
    s.tg.locks.Names m x ↔ s.holder m = some x ∧ s.phase x ≠ .acquired m := by
  constructor
  · rintro ⟨i, hi, rfl⟩
    rcases hs.slot i m hi with ⟨x, hx, hp⟩
    rcases hs.registered.holder m x hx hp with ⟨j, hj, hid⟩
    rw [hs.registered.unique i j m hi hj, hid]
    exact ⟨hx, hp⟩
  · rintro ⟨hx, hp⟩
    exact hs.registered.holder m x hx hp

/-- A mutex that has just been acquired has no slot, and there is room for one. -/
theorem Faithful.room {t m : Nat} (hp : s.phase t = .acquired m) :
    (∀ i, ¬ s.tg.locks.IsFor i m) ∧ s.tg.locks.lockidx < MAX := by
  have hno : ∀ i, ¬ s.tg.locks.IsFor i m := by
    intro i hi
    rcases hs.slot i m hi with ⟨x, hx, hpx⟩
    rw [hs.disciplined.acquired t m hp, Option.some.injEq] at hx
    exact hpx (hx ▸ hp)
  refine ⟨hno, ?_⟩
  -- The slots are for distinct mutexes, and none for this one.
  have hmaps : ∀ i ∈ Finset.range s.tg.locks.lockidx.toNat,
      (s.tg.locks.locklist.cell i).lockId ∈ w.mutexes.erase m := by
    intro i hi
    have hlt := Finset.mem_range.mp hi
    have hfor : s.tg.locks.IsFor i (s.tg.locks.locklist.cell i).lockId := ⟨by omega, rfl⟩
    exact Finset.mem_erase.mpr ⟨fun heq => hno i (heq ▸ hfor), hs.registered.mutex i _ hfor⟩
  have hinj : Set.InjOn (fun i => (s.tg.locks.locklist.cell i).lockId)
      (Finset.range s.tg.locks.lockidx.toNat) := by
    intro i hi j hj hid
    have hi' := Finset.mem_range.mp hi
    have hj' := Finset.mem_range.mp hj
    exact hs.registered.unique i j _ ⟨by omega, hid⟩ ⟨by omega, rfl⟩
  have hcard := Finset.card_le_card_of_injOn _ hmaps hinj
  have hm : m ∈ w.mutexes := hs.disciplined.mutex t m (.inr (.inl hp))
  have hpos := Finset.card_pos.mpr ⟨m, hm⟩
  rw [Finset.card_range, Finset.card_erase_of_mem hm] at hcard
  have hle := w.mutexes_le
  omega

/-- Such a step keeps to the arrays, and to what the lock table needs. -/
theorem Faithful.inBounds {a : Action} (hen : Enabled w s a) : InBounds s a ∧ Tracks s a := by
  cases a with
  | lockBefore t m => exact ⟨trivial, trivial⟩
  | acquire t m => exact ⟨trivial, trivial⟩
  | lockAfter t m => exact ⟨.inr (hs.room hen).2, trivial⟩
  | release t m => exact ⟨trivial, trivial⟩
  | unlockAfter t m => exact absurd hen (hs.unreleased t m)

/-- What is to be shown of a step: the rest the other invariants say. -/
theorem Faithful.next {a : Action} {tg : TaskGraph} (hen : Enabled w s a)
    (htg : hook s.tg a = some tg) (h : Fits w.threads tg → Disciplined w (s.move tg a) →
      Registered w (s.move tg a) → Faithful w (s.move tg a)) : Faithful w (s.move tg a) := by
  rcases hs.inBounds hen with ⟨hok, htracks⟩
  have hstep : step w s a = some (s.move tg a) := by
    rw [step, if_pos hen, htg]
    rfl
  rcases hook_total hs.disciplined hs.fits hen hok with ⟨tg', htg', hfits⟩
  obtain rfl : tg' = tg := Option.some.inj (htg'.symm.trans htg)
  exact h hfits (disciplined_step hs.disciplined hstep)
    (registered_step hs.disciplined hs.registered htracks hstep)

theorem faithful_lockBefore {t m : Nat} {tg : TaskGraph} (hen : Enabled w s (.lockBefore t m))
    (hok : Patient w s (.lockBefore t m)) (htg : s.tg.lockBefore t m = some tg) :
    Faithful w (s.move tg (.lockBefore t m)) := by
  have hidle : s.phase t = .idle := hen.2.2
  -- Nobody else waits for the mutex if it is free; if not, its holder has a slot.
  have hfree : s.holder m = none → ∀ x, s.phase x ≠ .waiting m := by
    intro hm x hx
    simp only [Patient, hm] at hok
    exact hok x (hs.disciplined.thread x (by rw [hx]; exact nofun)) hx
  have hheld : ∀ h, s.holder m = some h → h ≠ t ∧ s.phase h ≠ .acquired m := by
    intro h hm
    simp only [Patient, hm] at hok
    exact hok
  refine hs.next hen htg (fun hfits hd hr => ⟨hd, hfits, hr, fun x n hx => ?_, fun i n hi => ?_,
    fun x y n hx hy hn => ?_, fun x y n hx hy => ?_, fun a b => ?_⟩)
  · rcases phase_update hx with ⟨-, hq⟩ | ⟨-, hx⟩
    · cases hq
    · exact hs.unreleased x n hx
  · rcases hs.slot i n ((lockBefore_isFor htg i n).mp hi) with ⟨x, hx, hp⟩
    refine ⟨x, hx, fun hx' => ?_⟩
    rcases phase_update hx' with ⟨-, hq⟩ | ⟨-, hx'⟩
    · cases hq
    · exact hp hx'
  · rcases phase_update hx with ⟨rfl, hq⟩ | ⟨-, hx⟩
    · cases hq
      rcases phase_update hy with ⟨rfl, -⟩ | ⟨-, hy⟩
      · rfl
      · exact absurd hy (hfree hn y)
    · rcases phase_update hy with ⟨-, hq⟩ | ⟨-, hy⟩
      · cases hq
        exact absurd hx (hfree hn x)
      · exact hs.alone x y n hx hy hn
  · rcases phase_update hx with ⟨-, hq⟩ | ⟨-, hx⟩
    · cases hq
    · rcases phase_update hy with ⟨-, hq⟩ | ⟨-, hy⟩
      · cases hq
        exact (hheld x (hs.disciplined.acquired x m hx)).2 hx
      · exact hs.fresh x y n hx hy
  · change tg.vertices.Edge a b ↔ _
    rw [(lockBefore_edge hs.fits.1.wf htg).2, hs.edge, hs.names_iff]
    constructor
    · rintro (⟨n, hn, hb⟩ | ⟨rfl, -, hb, -⟩)
      · have hat : a ≠ t := by
          rintro rfl
          rw [hidle] at hn
          cases hn
        exact ⟨n, (Function.update_of_ne hat ..).trans hn, hb⟩
      · exact ⟨m, Function.update_self .., hb⟩
    · rintro ⟨n, hn, hb⟩
      rcases phase_update hn with ⟨rfl, hq⟩ | ⟨-, hn⟩
      · cases hq
        exact .inr ⟨rfl, (hheld b hb).1, hb, (hheld b hb).2⟩
      · exact .inl ⟨n, hn, hb⟩

theorem faithful_acquire {t m : Nat} (hen : Enabled w s (.acquire t m)) :
    Faithful w (s.move s.tg (.acquire t m)) := by
  rcases hen with ⟨hwait, hfree⟩
  -- The hook has not run yet, so the tables are as they were. What changes is who
  -- waits, and who holds.
  refine hs.next ⟨hwait, hfree⟩ rfl (fun hfits hd hr => ⟨hd, hfits, hr, fun x n hx => ?_,
    fun i n hi => ?_, fun x y n hx hy hn => ?_, fun x y n hx hy => ?_, fun a b => ?_⟩)
  · rcases phase_update hx with ⟨-, hq⟩ | ⟨-, hx⟩
    · cases hq
    · exact hs.unreleased x n hx
  · rcases hs.slot i n hi with ⟨x, hx, hp⟩
    -- The mutex was free, so no edge led through it.
    have hnm : n ≠ m := by
      rintro rfl
      rw [hfree] at hx
      cases hx
    refine ⟨x, (Function.update_of_ne hnm ..).trans hx, fun hx' => ?_⟩
    rcases phase_update hx' with ⟨-, hq⟩ | ⟨-, hx'⟩
    · cases hq
      exact hnm rfl
    · exact hp hx'
  · rcases phase_update hx with ⟨-, hq⟩ | ⟨-, hx⟩
    · cases hq
    · rcases phase_update hy with ⟨-, hq⟩ | ⟨-, hy⟩
      · cases hq
      · rcases holder_update hn with ⟨-, hq⟩ | ⟨-, hn⟩
        · cases hq
        · exact hs.alone x y n hx hy hn
  · rcases phase_update hy with ⟨-, hq⟩ | ⟨hyt, hy⟩
    · cases hq
    · rcases phase_update hx with ⟨-, hq⟩ | ⟨-, hx⟩
      -- The thread that has acquired the mutex was the only one that waited.
      · cases hq
        exact hyt (hs.alone y t m hy hwait hfree)
      · exact hs.fresh x y n hx hy
  · change s.tg.vertices.Edge a b ↔ _
    rw [hs.edge]
    constructor
    · rintro ⟨n, hn, hb⟩
      have hnm : n ≠ m := by
        rintro rfl
        rw [hfree] at hb
        cases hb
      have hat : a ≠ t := by
        rintro rfl
        rw [hwait] at hn
        cases hn
        exact hnm rfl
      exact ⟨n, (Function.update_of_ne hat ..).trans hn, (Function.update_of_ne hnm ..).trans hb⟩
    · rintro ⟨n, hn, hb⟩
      rcases phase_update hn with ⟨-, hq⟩ | ⟨hat, ha⟩
      · cases hq
      · rcases holder_update hb with ⟨hnm, -⟩ | ⟨-, hb⟩
        -- Nobody else waits for the mutex, so the new holder is waited for by none.
        · exact absurd (hs.alone a t m (hnm ▸ ha) hwait hfree) hat
        · exact ⟨n, ha, hb⟩

theorem faithful_lockAfter {t m : Nat} {tg : TaskGraph} (hen : Enabled w s (.lockAfter t m))
    (htg : s.tg.lockAfter t m = some tg) : Faithful w (s.move tg (.lockAfter t m)) := by
  have hacq : s.phase t = .acquired m := hen
  rcases lockAfter_eq_some htg with ⟨-, k, -, hk, rfl⟩ | ⟨k, g, hk, -⟩
  -- No slot of the table is empty, so the mutex gets a new one at the end.
  · have hlast : (k : Int) = s.tg.locks.lockidx := by
      rcases hk with hk | hk
      · exact absurd (hs.registered.mutex k 0 hk) w.mutexes_ne
      · exact hk.1
    refine hs.next hen htg (fun hfits hd hr => ⟨hd, hfits, hr, fun x n hx => ?_, fun i n hi => ?_,
      fun x y n hx hy hn => ?_, fun x y n hx hy => ?_, fun a b => ?_⟩)
    · rcases phase_update hx with ⟨-, hq⟩ | ⟨-, hx⟩
      · cases hq
      · exact hs.unreleased x n hx
    -- The new slot is for the mutex of this thread, which holds it.
    · rcases (isFor_append hlast t m _ i n).mp hi with hi | ⟨-, rfl⟩
      · rcases hs.slot i n hi with ⟨x, hx, hp⟩
        refine ⟨x, hx, fun hx' => ?_⟩
        rcases phase_update hx' with ⟨-, hq⟩ | ⟨-, hx'⟩
        · cases hq
        · exact hp hx'
      · refine ⟨t, hs.disciplined.acquired t n hacq, fun hx => ?_⟩
        rcases phase_update hx with ⟨-, hq⟩ | ⟨hne, -⟩
        · cases hq
        · exact hne rfl
    · rcases phase_update hx with ⟨-, hq⟩ | ⟨-, hx⟩
      · cases hq
      · rcases phase_update hy with ⟨-, hq⟩ | ⟨-, hy⟩
        · cases hq
        · exact hs.alone x y n hx hy hn
    · rcases phase_update hx with ⟨-, hq⟩ | ⟨-, hx⟩
      · cases hq
      · rcases phase_update hy with ⟨-, hq⟩ | ⟨-, hy⟩
        · cases hq
        · exact hs.fresh x y n hx hy
    · change s.tg.vertices.Edge a b ↔ _
      rw [hs.edge]
      constructor
      · rintro ⟨n, hn, hb⟩
        have hat : a ≠ t := by
          rintro rfl
          rw [hacq] at hn
          cases hn
        exact ⟨n, (Function.update_of_ne hat ..).trans hn, hb⟩
      · rintro ⟨n, hn, hb⟩
        rcases phase_update hn with ⟨-, hq⟩ | ⟨-, hn⟩
        · cases hq
        · exact ⟨n, hn, hb⟩
  -- The other branch is for a mutex that is in the table, and this one is not.
  · exact absurd hk ((hs.room hacq).1 k)

end Steps

/-- The steps keep the invariant. -/
theorem faithful_step {w : Setting} {s s' : State} {a : Action} (hs : Faithful w s)
    (hok : Patient w s a) (hstep : step w s a = some s') : Faithful w s' := by
  rcases step_eq_some hstep with ⟨hen, tg, htg, rfl⟩
  cases a with
  | lockBefore t m => exact faithful_lockBefore hs hen hok htg
  | acquire t m =>
      obtain rfl : s.tg = tg := Option.some.inj htg
      exact faithful_acquire hs hen
  | lockAfter t m => exact faithful_lockAfter hs hen htg
  | release t m => exact absurd hok not_false
  | unlockAfter t m => exact absurd hen (hs.unreleased t m)

theorem reachable_faithful {w : Setting} {s : State}
    (h : ((detector w).restrict (Patient w)).Reachable s) : Faithful w s := by
  refine h.invariant (Faithful w) (fun _ hs => faithful_initial w hs) ?_
  rintro s a s' hs ⟨hok, hst⟩
  exact faithful_step hs hok hst

/-! ### Cycles -/

section Cycles

variable {threads : Finset Nat} {g : VertexList} (hg : Sized threads g)
include hg

theorem edge_of_mem_succ {i j : Nat} (h : j ∈ succ g i) :
    g.Edge (g.list.cell i).node.id (g.list.cell j).node.id := by
  have hi := lt_of_mem_succ h
  rw [succ_of_lt hi] at h
  rcases List.mem_map.mp h with ⟨n, hn, rfl⟩
  rcases Search.edgeTarget_eq hg.closed hi hn with ⟨hsearch, -⟩
  have hproc : n = process n.id := by
    rw [process, ← hg.wf.next i hi n hn]
  rw [hproc] at hsearch
  rcases searchVertex_eq_some hg.wf hsearch with ⟨j, hj, -, hid⟩ | ⟨hj, -⟩
  · obtain rfl : edgeTarget g (process n.id) = j := by omega
    refine ⟨i, hi, rfl, n, hn, ?_⟩
    rw [hproc, hid]
    rfl
  · omega

theorem mem_succ_of_edge {a b : Nat} (h : g.Edge a b) :
    edgeTarget g (process b) ∈ succ g (edgeTarget g (process a)) := by
  rcases h with ⟨i, hi, rfl, n, hn, rfl⟩
  have htarget : edgeTarget g (process (g.list.cell i).node.id) = i := by
    unfold edgeTarget
    rw [searchVertex_of_lt hg.wf hi]
    rfl
  rw [htarget, succ_of_lt hi]
  refine List.mem_map.mpr ⟨n, hn, ?_⟩
  rw [process, ← hg.wf.next i hi n hn]

/-- The vertices have a cycle if the threads have one. -/
theorem cyclic_iff : Cyclic (succ g) ↔ ∃ t, Relation.TransGen g.Edge t t := by
  constructor
  · rintro ⟨i, hi⟩
    exact ⟨_, Relation.TransGen.lift (fun i => (g.list.cell i).node.id)
      (fun _ _ hab => edge_of_mem_succ hg hab) i i hi⟩
  · rintro ⟨t, ht⟩
    exact ⟨_, Relation.TransGen.lift (fun x => edgeTarget g (process x))
      (fun _ _ hab => mem_succ_of_edge hg hab) t t ht⟩

/-- Where each thread has edges to one other at most, no vertex has two. -/
theorem succ_length_le (hone : ∀ a b c, g.Edge a b → g.Edge a c → b = c) (i : Nat) :
    (succ g i).length ≤ 1 := by
  by_cases hi : (i : Int) < g.num
  · rw [succ_of_lt hi, List.length_map]
    have hnodup := hg.wf.nodup i hi
    have hsame : ∀ n ∈ (g.list.cell i).next, ∀ n' ∈ (g.list.cell i).next, n.id = n'.id :=
      fun n hn n' hn' => hone _ _ _ ⟨i, hi, rfl, n, hn, rfl⟩ ⟨i, hi, rfl, n', hn', rfl⟩
    generalize (g.list.cell i).next = next at hnodup hsame
    rcases next with _ | ⟨n, _ | ⟨n', next⟩⟩
    · exact Nat.zero_le 1
    · exact Nat.le_refl 1
    · rw [List.map_cons, List.map_cons, List.nodup_cons] at hnodup
      have hsame := hsame n List.mem_cons_self n' (List.mem_cons_of_mem n List.mem_cons_self)
      exact absurd (hsame ▸ List.mem_cons_self) hnodup.1
  · unfold succ
    rw [if_neg hi]
    exact Nat.zero_le 1

end Cycles

/-- What the check reports in a graph where each thread has edges to one other at most. -/
theorem checkDeadLock_iff {threads : Finset Nat} {g : VertexList} (hg : Sized threads g)
    (hone : ∀ a b c, g.Edge a b → g.Edge a c → b = c) {d d' : Search}
    (h : Search.checkDeadLock g d = some d') :
    d'.deadlock = 1 ↔ ∃ t, Relation.TransGen g.Edge t t := by
  have hflag := Search.checkDeadLock_flag hg.closed h
  unfold Search.Reports at hflag
  rw [hflag, exists_flag_iff, ← cyclic_iff hg]
  constructor
  · rintro (hcyclic | ⟨i, j, -, hjoins⟩)
    · exact hcyclic
    · exact hjoins.cyclic (succ_length_le hg hone)
  · exact .inl

/-! ### Circles of threads -/

/-- Threads that wait for each other stay where they are, whatever the other
    threads do. -/
theorem circle_lasts {w : Setting} {s t : State} {steps : List (State × Action)}
    (C : Nat → Prop) (hC : ∀ x, C x → ∃ m h, s.phase x = .waiting m ∧ s.holder m = some h ∧ C h)
    (hrun : (detector w).Run s steps t) :
    ∀ x, C x → ∃ m h, s.phase x = .waiting m ∧ t.phase x = .waiting m ∧
      t.holder m = some h ∧ C h := by
  induction hrun with
  | nil =>
      intro x hx
      rcases hC x hx with ⟨m, h, hm, hh, hch⟩
      exact ⟨m, h, hm, hm, hh, hch⟩
  | snoc steps u a t _ hstep ih =>
      intro x hx
      rcases ih x hx with ⟨m, h, hs, hm, hh, hch⟩
      refine ⟨m, h, hs, ?_⟩
      rcases step_eq_some hstep with ⟨hen, tg, -, rfl⟩
      -- The thread that moves does not wait for a mutex that is held.
      have hmoves : ∀ y, (∀ n k, u.phase y = .waiting n → u.holder n ≠ some k) → ¬ C y := by
        intro y hy hcy
        rcases ih y hcy with ⟨n, k, -, hn, hk, -⟩
        exact hy n k hn hk
      have hkeep : ∀ {y q}, ¬ C y → Function.update u.phase y q x = .waiting m := by
        intro y q hy
        have hxy : x ≠ y := by
          rintro rfl
          exact hy hx
        exact (Function.update_of_ne hxy ..).trans hm
      cases a with
      | lockBefore y n =>
          exact ⟨hkeep (hmoves y (fun k _ hk => by rw [hen.2.2] at hk; cases hk)), hh, hch⟩
      | acquire y n =>
          have hy : ¬ C y := hmoves y (fun k j hk hj => by
            rw [hen.1] at hk
            cases hk
            rw [hen.2] at hj
            cases hj)
          refine ⟨hkeep hy, ?_, hch⟩
          have hmn : m ≠ n := by
            rintro rfl
            rw [hen.2] at hh
            cases hh
          exact (Function.update_of_ne hmn ..).trans hh
      | lockAfter y n =>
          have hacq : u.phase y = .acquired n := hen
          exact ⟨hkeep (hmoves y (fun k _ hk => by rw [hacq] at hk; cases hk)), hh, hch⟩
      | release y n =>
          have hy : ¬ C y := hmoves y (fun k _ hk => by rw [hen.1] at hk; cases hk)
          refine ⟨hkeep hy, ?_, hch⟩
          -- The holder is one of the circle, so it releases nothing.
          have hmn : m ≠ n := by
            rintro rfl
            rw [hen.2, Option.some.injEq] at hh
            exact hy (hh ▸ hch)
          exact (Function.update_of_ne hmn ..).trans hh
      | unlockAfter y n =>
          have hrel : u.phase y = .released n := hen
          exact ⟨hkeep (hmoves y (fun k _ hk => by rw [hrel] at hk; cases hk)), hh, hch⟩

/-- Up to the first unlock, one round of `thread_routine` reports a deadlock
    exactly if some threads wait for each other in a circle, and signals nobody
    if there is none. Such threads never move again. -/
theorem threadRoutine_detects (w : Setting) (s : State)
    (h : ((detector w).restrict (Patient w)).Reachable s) (d : Search) :
    (∃ d' tids, threadRoutine s.tg d = some (d', tids) ∧
      (d'.deadlock = 1 ↔ ∃ t, Relation.TransGen (WaitsFor s) t t) ∧
      (d'.deadlock ≠ 1 → tids = [])) ∧
    ∀ t, Relation.TransGen (WaitsFor s) t t → ∀ steps s', (detector w).Run s steps s' →
      s'.phase t = s.phase t := by
  have hs := reachable_faithful h
  refine ⟨?_, fun t ht steps s' hrun => ?_⟩
  · have hedge : s.tg.vertices.Edge = WaitsFor s := by
      funext a b
      exact propext (hs.edge a b)
    -- A thread waits for one mutex, and that has one holder.
    have hone : ∀ a b c, s.tg.vertices.Edge a b → s.tg.vertices.Edge a c → b = c := by
      intro a b c hab hac
      rw [hedge] at hab hac
      rcases hab with ⟨m, hm, hb⟩
      rcases hac with ⟨n, hn, hc⟩
      rw [hm] at hn
      cases hn
      exact Option.some.inj (hb.symm.trans hc)
    rcases Search.checkDeadLock_total hs.fits.1.closed d with ⟨d', hd'⟩
    have hiff := checkDeadLock_iff hs.fits.1 hone hd'
    rw [hedge] at hiff
    rcases signals_total s.tg d' with ⟨tids, htids, -⟩
    -- The signals are sent only when a deadlock is found.
    by_cases hdead : d'.deadlock = 1
    · refine ⟨d', tids, ?_, hiff, fun hnot => absurd hdead hnot⟩
      rw [threadRoutine, hd']
      simp only [Option.bind_eq_bind, Option.bind_some, if_pos hdead, htids]
      rfl
    · refine ⟨d', [], ?_, hiff, fun _ => rfl⟩
      rw [threadRoutine, hd']
      simp only [Option.bind_eq_bind, Option.bind_some, if_neg hdead, Option.pure_def]
  -- Whoever is on a circle waits for one who is on it too.
  · have hcircle : ∀ x, Relation.TransGen (WaitsFor s) x x → ∃ m h, s.phase x = .waiting m ∧
        s.holder m = some h ∧ Relation.TransGen (WaitsFor s) h h := by
      intro x hx
      rcases Relation.TransGen.head'_iff.mp hx with ⟨y, ⟨m, hm, hy⟩, hyx⟩
      exact ⟨m, y, hm, hy, Relation.TransGen.tail' hyx ⟨m, hm, hy⟩⟩
    rcases circle_lasts _ hcircle hrun t ht with ⟨m, k, hm, hm', -⟩
    rw [hm, hm']

/-- Each of two threads has a mutex and asks for the other's. -/
theorem threadRoutine_detects_crossed : ∃ s, Relation.TransGen (WaitsFor s) 1 1 ∧
    ∃ d' tids, threadRoutine s.tg untouched = some (d', tids) ∧
      (d'.deadlock = 1 ↔ ∃ t, Relation.TransGen (WaitsFor s) t t) := by
  rcases System.exists_exec (System.guarded (fun s a => decide (Patient twoMutexes s a))
      (step twoMutexes)) start (lock 1 1 ++ lock 2 2 ++ [.lockBefore 1 2, .lockBefore 2 1])
    (fun s => s.phase 1 == .waiting 2 && s.phase 2 == .waiting 1 && s.holder 1 == some 1 &&
      s.holder 2 == some 2) (by rfl) with ⟨s, hs, hp⟩
  simp only [Bool.and_eq_true, beq_iff_eq] at hp
  rcases hp with ⟨⟨⟨hone, htwo⟩, hheld⟩, hheld'⟩
  have hreach : ((detector twoMutexes).restrict (Patient twoMutexes)).Reachable s :=
    System.restrict_reachable_of_guarded (fun _ _ h => of_decide_eq_true h) _ start s
      (.init start initial_start) hs
  rcases (threadRoutine_detects twoMutexes s hreach untouched).1 with ⟨d', tids, h, hiff, -⟩
  exact ⟨s, .tail (.single ⟨2, hone, hheld'⟩) ⟨1, htwo, hheld⟩, d', tids, h, hiff⟩

end DeadlockDetector

end BlogSample
