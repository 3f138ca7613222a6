import BlogSample.DeadlockDetector.Graph
import Mathlib.Tactic.Tauto

/-!
# The Hooks of the Deadlock Detector

The lock table of `task_graph` and the three hooks that keep it. A slot holds
the address of a mutex and the thread that has it; only the slots below
`lockidx` are looked at. Slots are cleared wherever they are, while `lockidx`
counts up and down as if the last one were meant.

## Main definitions

* `LockNode`, `LockList`, `TaskGraph`: The data.
* `searchLock`, `searchEmptyLock`: Looking for a slot.
* `IsFor`, `Names`: What the slots say.
* `requestEdge`, `dropEdge`: The lines of the hooks that change the graph.
* `lockBefore`, `lockAfter`, `unlockAfter`: The hooks.

## Theorems

* `requestEdge_eq_some`, `dropEdge_eq_some`: One edge more, one edge less.
* `lockBefore_locks`, `lockBefore_edge`: What `lock_before` does to the lock
  table and to the graph.
* `lockAfter_eq_some`, `unlockAfter_eq_some`: The branches of the others.
-/

namespace BlogSample

namespace DeadlockDetector

/-- The fields of `struct source_node` that are set and read in a slot of the
    lock table. `lock_id` is the address of a mutex, `0` in an empty slot. -/
structure LockNode where
  id : Nat
  lockId : Nat
  degress : Int

/-- `locklist` and `lockidx` of `struct task_graph`. -/
structure LockList where
  locklist : CArray LockNode MAX
  lockidx : Int

/-- `struct task_graph`. -/
structure TaskGraph where
  vertices : VertexList
  locks : LockList

namespace LockList

/-- `search_lock(lock)`. -/
def searchLock (l : LockList) (lock : Nat) : Option Int :=
  l.locklist.scan (fun n => n.lockId == lock) l.lockidx

/-- `search_empty_lock(lock)`. The argument is not used. -/
def searchEmptyLock (l : LockList) (_lock : Nat) : Option Int := do
  let i ← l.locklist.scan (fun n => n.lockId == 0) l.lockidx
  if i = -1 then pure l.lockidx else pure i

/-- A slot below `lockidx` is for the mutex. -/
def IsFor (l : LockList) (i m : Nat) : Prop :=
  (i : Int) < l.lockidx ∧ (l.locklist.cell i).lockId = m

/-- A slot below `lockidx` is for the mutex and names the thread. -/
def Names (l : LockList) (m t : Nat) : Prop :=
  ∃ i, l.IsFor i m ∧ (l.locklist.cell i).id = t

instance (l : LockList) (i m : Nat) : Decidable (l.IsFor i m) :=
  inferInstanceAs (Decidable (_ ∧ _))

instance (l : LockList) (m : Nat) (P : Nat → Prop) [DecidablePred P] :
    Decidable (∃ k, l.IsFor k m ∧ P k) :=
  decidable_of_iff (∃ k < l.lockidx.toNat, l.IsFor k m ∧ P k)
    (exists_congr fun _ => ⟨fun h => h.2, fun h => ⟨by have := h.1.1; omega, h⟩⟩)

instance (l : LockList) (m : Nat) (P : Nat → Prop) [DecidablePred P] :
    Decidable (∀ k, l.IsFor k m → P k) :=
  decidable_of_iff (∀ k < l.lockidx.toNat, l.IsFor k m → P k)
    (forall_congr' fun _ => ⟨fun h hk => h (by have := hk.1; omega) hk, fun h _ => h⟩)

instance (l : LockList) (m : Nat) : Decidable (∃ k, l.IsFor k m) :=
  decidable_of_iff (∃ k, l.IsFor k m ∧ True) (by simp only [and_true])

theorem searchLock_eq_some {l : LockList} {m : Nat} {r : Int} (h : l.searchLock m = some r) :
    (∃ i : Nat, r = i ∧ l.IsFor i m ∧ ∀ j : Nat, j < i → ¬ l.IsFor j m) ∨
      (r = -1 ∧ ∀ i, ¬ l.IsFor i m) := by
  rcases CArray.scan_eq_some h with ⟨i, hr, hi, hp, hmin⟩ | ⟨hr, hall⟩
  · refine Or.inl ⟨i, hr, ⟨hi, beq_iff_eq.mp hp⟩, fun j hj hfor => ?_⟩
    exact ne_of_beq_false (hmin j hj) hfor.2
  · exact Or.inr ⟨hr, fun i hfor => ne_of_beq_false (hall i hfor.1) hfor.2⟩

theorem searchEmptyLock_eq_some {l : LockList} {m : Nat} {r : Int}
    (h : l.searchEmptyLock m = some r) :
    (∃ i : Nat, r = i ∧ l.IsFor i 0) ∨ (r = l.lockidx ∧ ∀ i, ¬ l.IsFor i 0) := by
  simp only [searchEmptyLock, Option.bind_eq_bind, Option.bind_eq_some_iff] at h
  rcases h with ⟨s, hs, h⟩
  rcases CArray.scan_eq_some hs with ⟨i, rfl, hi, hp, -⟩ | ⟨rfl, hall⟩
  · rw [if_neg (by omega)] at h
    exact Or.inl ⟨i, (Option.some.inj h).symm, hi, beq_iff_eq.mp hp⟩
  · rw [if_pos rfl] at h
    exact Or.inr ⟨(Option.some.inj h).symm, fun i hfor => ne_of_beq_false (hall i hfor.1) hfor.2⟩

instance (l : LockList) (m t : Nat) : Decidable (l.Names m t) :=
  inferInstanceAs (Decidable (∃ k, l.IsFor k m ∧ _))

/-- A mutex has one first slot. -/
theorem first_unique {l : LockList} {k k' m : Nat} (hk : l.IsFor k m)
    (hmin : ∀ j < k, ¬ l.IsFor j m) (hk' : l.IsFor k' m) (hmin' : ∀ j < k', ¬ l.IsFor j m) :
    k = k' := by
  rcases Nat.lt_trichotomy k k' with hlt | heq | hgt
  · exact absurd hk (hmin' k hlt)
  · exact heq
  · exact absurd hk' (hmin k' hgt)

end LockList

namespace TaskGraph

open VertexList

/-- The lines of `lock_before` that put an edge from `t` to `x`, if it is not
    there. -/
def requestEdge (g : VertexList) (t x : Nat) : Option VertexList := do
  let g ← g.addVertex (process t)
  let g ← g.addVertex (process x)
  let linked ← g.verifyEdge (process t) (process x)
  if linked then pure g else g.addEdge (process t) (process x)

/-- The lines of `lock_after` that take the edge from `t` to `x` away, if it
    is there. -/
def dropEdge (g : VertexList) (t x : Nat) : Option VertexList := do
  let linked ← g.verifyEdge (process t) (process x)
  if linked then g.removeEdge (process t) (process x) else pure g

/-- One round of the loop of `lock_before`. -/
def lockBeforeSlot (t m : Nat) (tg : TaskGraph) (idx : Nat) : Option TaskGraph := do
  let node ← tg.locks.locklist.read idx
  if node.lockId = m then do
    let locklist ← tg.locks.locklist.write idx { node with degress := node.degress + 1 }
    let g ← requestEdge tg.vertices t node.id
    pure ⟨g, ⟨locklist, tg.locks.lockidx⟩⟩
  else pure tg

/-- The first rounds of the loop of `lock_before`. -/
def lockBeforeLoop (t m : Nat) (tg : TaskGraph) : Nat → Option TaskGraph
  | 0 => some tg
  | idx + 1 => do
      let tg ← lockBeforeLoop t m tg idx
      lockBeforeSlot t m tg idx

/-- `lock_before(thread_id, lockaddr)`. -/
def lockBefore (tg : TaskGraph) (t m : Nat) : Option TaskGraph :=
  lockBeforeLoop t m tg tg.locks.lockidx.toNat

/-- `lock_after(thread_id, lockaddr)`. -/
def lockAfter (tg : TaskGraph) (t m : Nat) : Option TaskGraph := do
  let idx ← tg.locks.searchLock m
  if idx = -1 then do
    let eidx ← tg.locks.searchEmptyLock m
    let node ← tg.locks.locklist.read eidx
    let locklist ← tg.locks.locklist.write eidx { node with id := t, lockId := m }
    pure ⟨tg.vertices, ⟨locklist, tg.locks.lockidx + 1⟩⟩
  else do
    let node ← tg.locks.locklist.read idx
    let g ← dropEdge tg.vertices t node.id
    let locklist ← tg.locks.locklist.write idx { node with id := t, degress := node.degress - 1 }
    pure ⟨g, ⟨locklist, tg.locks.lockidx⟩⟩

/-- `unlock_after(thread_id, lockaddr)`. The thread is not used, and `-1` is
    not looked for. -/
def unlockAfter (tg : TaskGraph) (_t m : Nat) : Option TaskGraph := do
  let idx ← tg.locks.searchLock m
  let node ← tg.locks.locklist.read idx
  if node.degress = 0 then do
    let locklist ← tg.locks.locklist.write idx { node with id := 0, lockId := 0 }
    pure ⟨⟨tg.vertices.list, tg.vertices.num - 1⟩, ⟨locklist, tg.locks.lockidx - 1⟩⟩
  else pure tg

/-! ### The edges of a request -/

section Edges

variable {g g' : VertexList} (hg : g.Wf) {t x : Nat}
include hg

/-- A request adds the one edge, unless the thread would wait for itself. -/
theorem requestEdge_eq_some (h : requestEdge g t x = some g') :
    g'.Wf ∧ (∀ y, g'.HasVertex y ↔ g.HasVertex y ∨ y = t ∨ y = x) ∧
      ∀ a b, g'.Edge a b ↔ g.Edge a b ∨ (a = t ∧ b = x ∧ b ≠ t) := by
  simp only [requestEdge, Option.bind_eq_bind, Option.bind_eq_some_iff] at h
  rcases h with ⟨g₁, h₁, g₂, h₂, linked, hl, h⟩
  have hg₁ := wf_addVertex hg h₁
  have hg₂ := wf_addVertex hg₁ h₂
  have hv₂ : ∀ y, g₂.HasVertex y ↔ g.HasVertex y ∨ y = t ∨ y = x := fun y => by
    rw [hasVertex_addVertex hg₁ h₂, hasVertex_addVertex hg h₁, or_assoc]
  have he₂ : ∀ a b, g₂.Edge a b ↔ g.Edge a b := fun a b =>
    (edge_addVertex hg₁ h₂ a b).trans (edge_addVertex hg h₁ a b)
  have ht : g₂.HasVertex t := (hv₂ t).mpr (Or.inr (Or.inl rfl))
  have hlinked := verifyEdge_eq_some hg₂ hl
  cases linked with
  | true =>
      -- The edge is there, or the thread would wait for itself.
      rw [if_pos rfl] at h
      rw [← Option.some.inj h]
      refine ⟨hg₂, hv₂, fun a b => ?_⟩
      rw [he₂]
      refine ⟨Or.inl, ?_⟩
      rintro (he | ⟨rfl, rfl, hne⟩)
      · exact he
      · rcases (hlinked.mp rfl).2 with heq | he
        · exact absurd heq.symm hne
        · exact (he₂ a b).mp he
  | false =>
      -- The edge is new, and the two threads are different.
      have hnew : ¬ (t = x ∨ g₂.Edge t x) := fun hc =>
        Bool.false_ne_true (hlinked.mpr ⟨ht, hc⟩)
      rw [not_or] at hnew
      change g₂.addEdge (process t) (process x) = some g' at h
      refine ⟨wf_addEdge hg₂ h hnew.2, fun y => ?_, fun a b => ?_⟩
      · rw [hasVertex_addEdge hg₂ h, hv₂]
        tauto
      · rw [edge_addEdge hg₂ h, he₂]
        refine or_congr_right ⟨?_, fun hc => ⟨hc.1, hc.2.1⟩⟩
        rintro ⟨rfl, rfl⟩
        exact ⟨rfl, rfl, Ne.symm hnew.1⟩

/-- Taking an edge away works if its target has a vertex. -/
theorem dropEdge_eq_some (h : dropEdge g t x = some g') :
    g'.Wf ∧ g'.num = g.num ∧ (∀ y, g'.HasVertex y ↔ g.HasVertex y) ∧
      ∀ a b, g'.Edge a b ↔ g.Edge a b ∧ ¬ (a = t ∧ b = x ∧ g.HasVertex x) := by
  simp only [dropEdge, Option.bind_eq_bind, Option.bind_eq_some_iff] at h
  rcases h with ⟨linked, hl, h⟩
  have hlinked := verifyEdge_eq_some hg hl
  cases linked with
  | true =>
      change g.removeEdge (process t) (process x) = some g' at h
      exact ⟨wf_removeEdge hg h, num_removeEdge hg h, hasVertex_removeEdge hg h,
        edge_removeEdge hg h⟩
  | false =>
      rw [if_neg Bool.false_ne_true] at h
      rw [← Option.some.inj h]
      refine ⟨hg, rfl, fun y => Iff.rfl, fun a b => ⟨fun he => ⟨he, ?_⟩, fun he => he.1⟩⟩
      rintro ⟨rfl, rfl, -⟩
      exact Bool.false_ne_true (hlinked.mpr ⟨he.hasVertex, Or.inr he⟩)

end Edges

/-! ### What the hooks do -/

/-- `lock_before` leaves the mutexes and the threads of the lock table as
    they are. -/
theorem lockBeforeSlot_locks {t m idx : Nat} {tg tg' : TaskGraph}
    (h : lockBeforeSlot t m tg idx = some tg') :
    tg'.locks.lockidx = tg.locks.lockidx ∧
      ∀ i, (tg'.locks.locklist.cell i).lockId = (tg.locks.locklist.cell i).lockId ∧
        (tg'.locks.locklist.cell i).id = (tg.locks.locklist.cell i).id := by
  simp only [lockBeforeSlot, Option.bind_eq_bind, Option.bind_eq_some_iff] at h
  rcases h with ⟨node, hn, h⟩
  by_cases hm : node.lockId = m
  -- Only `degress` is written.
  · rw [if_pos hm] at h
    simp only [Option.bind_eq_some_iff] at h
    rcases h with ⟨locklist, hw, g, -, h⟩
    rcases CArray.read_eq_some hn with ⟨k, hk, -, rfl⟩
    rcases CArray.write_eq_some hw with ⟨k', hk', -, rfl⟩
    obtain rfl : k = k' := by omega
    rw [← Option.some.inj h]
    refine ⟨rfl, fun i => ?_⟩
    by_cases hi : i = k
    · rw [hi, CArray.cell_set_self]
      exact ⟨rfl, rfl⟩
    · rw [CArray.cell_set_of_ne _ hi]
      exact ⟨rfl, rfl⟩
  · rw [if_neg hm] at h
    rw [← Option.some.inj h]
    exact ⟨rfl, fun i => ⟨rfl, rfl⟩⟩

theorem lockBeforeLoop_locks {t m : Nat} {tg : TaskGraph} (n : Nat) :
    ∀ {tg' : TaskGraph}, lockBeforeLoop t m tg n = some tg' →
      tg'.locks.lockidx = tg.locks.lockidx ∧
      ∀ i, (tg'.locks.locklist.cell i).lockId = (tg.locks.locklist.cell i).lockId ∧
        (tg'.locks.locklist.cell i).id = (tg.locks.locklist.cell i).id := by
  induction n with
  | zero =>
      intro tg' h
      rw [← Option.some.inj h]
      exact ⟨rfl, fun i => ⟨rfl, rfl⟩⟩
  | succ n ih =>
      intro tg' h
      simp only [lockBeforeLoop, Option.bind_eq_bind, Option.bind_eq_some_iff] at h
      rcases h with ⟨tg₁, h₁, h⟩
      rcases ih h₁ with ⟨hidx, hcell⟩
      rcases lockBeforeSlot_locks h with ⟨hidx', hcell'⟩
      exact ⟨hidx'.trans hidx, fun i => ⟨(hcell' i).1.trans (hcell i).1,
        (hcell' i).2.trans (hcell i).2⟩⟩

theorem lockBefore_locks {t m : Nat} {tg tg' : TaskGraph} (h : tg.lockBefore t m = some tg') :
    tg'.locks.lockidx = tg.locks.lockidx ∧
      ∀ i, (tg'.locks.locklist.cell i).lockId = (tg.locks.locklist.cell i).lockId ∧
        (tg'.locks.locklist.cell i).id = (tg.locks.locklist.cell i).id :=
  lockBeforeLoop_locks _ h

theorem lockBefore_isFor {t m : Nat} {tg tg' : TaskGraph} (h : tg.lockBefore t m = some tg')
    (i k : Nat) : tg'.locks.IsFor i k ↔ tg.locks.IsFor i k := by
  rcases lockBefore_locks h with ⟨hidx, hcell⟩
  rw [LockList.IsFor, LockList.IsFor, hidx, (hcell i).1]

theorem lockBefore_names {t m : Nat} {tg tg' : TaskGraph} (h : tg.lockBefore t m = some tg')
    (k x : Nat) : tg'.locks.Names k x ↔ tg.locks.Names k x := by
  rcases lockBefore_locks h with ⟨hidx, hcell⟩
  simp only [LockList.Names, lockBefore_isFor h, (hcell _).2]

/-- One round adds an edge to the thread its slot names, if the slot is for
    the mutex. -/
theorem lockBeforeSlot_edge {t m n : Nat} {tg tg' : TaskGraph} (hg : tg.vertices.Wf)
    (h : lockBeforeSlot t m tg n = some tg') :
    tg'.vertices.Wf ∧
      (∀ y, tg'.vertices.HasVertex y ↔ tg.vertices.HasVertex y ∨
        ((tg.locks.locklist.cell n).lockId = m ∧
          (y = t ∨ y = (tg.locks.locklist.cell n).id))) ∧
      ∀ a b, tg'.vertices.Edge a b ↔ tg.vertices.Edge a b ∨
        (a = t ∧ b ≠ t ∧ (tg.locks.locklist.cell n).lockId = m ∧
          (tg.locks.locklist.cell n).id = b) := by
  simp only [lockBeforeSlot, Option.bind_eq_bind, Option.bind_eq_some_iff] at h
  rcases h with ⟨node, hn, h⟩
  rcases CArray.read_eq_some hn with ⟨k, hk, -, rfl⟩
  obtain rfl : n = k := by omega
  by_cases hm : (tg.locks.locklist.cell n).lockId = m
  -- The slot is for the mutex: the request puts the edge.
  · rw [if_pos hm] at h
    simp only [Option.bind_eq_some_iff] at h
    rcases h with ⟨locklist, -, g, hreq, h⟩
    rw [← Option.some.inj h]
    rcases requestEdge_eq_some hg hreq with ⟨hwf, hv, he⟩
    refine ⟨hwf, fun y => ?_, fun a b => ?_⟩
    · rw [hv]
      simp only [hm, true_and]
    · rw [he]
      refine or_congr_right ⟨?_, ?_⟩
      · rintro ⟨ha, rfl, hb⟩
        exact ⟨ha, hb, hm, rfl⟩
      · rintro ⟨ha, hb, -, hid⟩
        exact ⟨ha, hid.symm, hb⟩
  -- The slot is for another mutex: nothing is done.
  · rw [if_neg hm] at h
    rw [← Option.some.inj h]
    refine ⟨hg, fun y => ⟨Or.inl, ?_⟩, fun a b => ⟨Or.inl, ?_⟩⟩
    · rintro (hy | ⟨hc, -⟩)
      · exact hy
      · exact absurd hc hm
    · rintro (he | ⟨-, -, hc, -⟩)
      · exact he
      · exact absurd hc hm

/-- The first `n` rounds add an edge to each thread that a slot for the mutex
    names. -/
theorem lockBeforeLoop_edge {t m : Nat} {tg : TaskGraph} (hg : tg.vertices.Wf) (n : Nat) :
    ∀ {tg' : TaskGraph}, lockBeforeLoop t m tg n = some tg' →
      tg'.vertices.Wf ∧
      (∀ y, tg'.vertices.HasVertex y ↔ tg.vertices.HasVertex y ∨
        ∃ i < n, (tg.locks.locklist.cell i).lockId = m ∧
          (y = t ∨ y = (tg.locks.locklist.cell i).id)) ∧
      ∀ a b, tg'.vertices.Edge a b ↔ tg.vertices.Edge a b ∨
        (a = t ∧ b ≠ t ∧ ∃ i < n, (tg.locks.locklist.cell i).lockId = m ∧
          (tg.locks.locklist.cell i).id = b) := by
  induction n with
  | zero =>
      intro tg' h
      rw [← Option.some.inj h]
      simp only [Nat.not_lt_zero, false_and, exists_false, and_false, or_false]
      exact ⟨hg, fun _ => trivial, fun _ _ => trivial⟩
  | succ n ih =>
      intro tg' h
      simp only [lockBeforeLoop, Option.bind_eq_bind, Option.bind_eq_some_iff] at h
      rcases h with ⟨tg₁, h₁, h⟩
      rcases ih h₁ with ⟨hwf, hv, he⟩
      -- The rounds before have not changed what the slots are for.
      rcases lockBeforeLoop_locks n h₁ with ⟨-, hcell⟩
      rcases lockBeforeSlot_edge hwf h with ⟨hwf', hv', he'⟩
      rw [(hcell n).1, (hcell n).2] at hv' he'
      refine ⟨hwf', fun y => ?_, fun a b => ?_⟩
      · rw [hv', hv, or_assoc, Nat.exists_lt_succ_right]
      · rw [he', he, or_assoc, Nat.exists_lt_succ_right]
        refine or_congr_right ?_
        rw [← and_or_left, ← and_or_left]

/-- `lock_before` adds an edge to each thread that the lock table names for
    the mutex, except to the thread itself. -/
theorem lockBefore_edge {t m : Nat} {tg tg' : TaskGraph} (hg : tg.vertices.Wf)
    (h : tg.lockBefore t m = some tg') :
    tg'.vertices.Wf ∧
      ∀ a b, tg'.vertices.Edge a b ↔ tg.vertices.Edge a b ∨
        (a = t ∧ b ≠ t ∧ tg.locks.Names m b) := by
  rcases lockBeforeLoop_edge hg _ h with ⟨hwf, -, he⟩
  refine ⟨hwf, fun a b => (he a b).trans (or_congr_right ?_)⟩
  refine and_congr_right fun _ => and_congr_right fun _ => ⟨?_, ?_⟩
  · rintro ⟨i, hi, hm, hb⟩
    exact ⟨i, ⟨by omega, hm⟩, hb⟩
  · rintro ⟨i, ⟨hi, hm⟩, hb⟩
    exact ⟨i, by omega, hm, hb⟩

/-- The two branches of `lock_after`: the mutex gets a slot, an empty one or
    the one at `lockidx`, or its first slot is handed over. -/
theorem lockAfter_eq_some {t m : Nat} {tg tg' : TaskGraph} (h : tg.lockAfter t m = some tg') :
    ((∀ i, ¬ tg.locks.IsFor i m) ∧ ∃ k : Nat, k < MAX ∧
      (tg.locks.IsFor k 0 ∨ ((k : Int) = tg.locks.lockidx ∧ ∀ i, ¬ tg.locks.IsFor i 0)) ∧
      tg' = ⟨tg.vertices, ⟨tg.locks.locklist.set k
        ⟨t, m, (tg.locks.locklist.cell k).degress⟩, tg.locks.lockidx + 1⟩⟩) ∨
    ∃ k : Nat, ∃ g : VertexList, tg.locks.IsFor k m ∧ (∀ j < k, ¬ tg.locks.IsFor j m) ∧
      dropEdge tg.vertices t (tg.locks.locklist.cell k).id = some g ∧
      tg' = ⟨g, ⟨tg.locks.locklist.set k
        ⟨t, m, (tg.locks.locklist.cell k).degress - 1⟩, tg.locks.lockidx⟩⟩ := by
  simp only [lockAfter, Option.bind_eq_bind, Option.bind_eq_some_iff] at h
  rcases h with ⟨idx, hidx, h⟩
  rcases LockList.searchLock_eq_some hidx with ⟨k, rfl, hfor, hmin⟩ | ⟨rfl, hno⟩
  -- The mutex has a slot: the thread that waited takes it over.
  · rw [if_neg (by omega)] at h
    simp only [Option.bind_eq_some_iff] at h
    rcases h with ⟨node, hn, g, hdrop, locklist, hw, h⟩
    rcases CArray.read_eq_some hn with ⟨k', hk', -, rfl⟩
    rcases CArray.write_eq_some hw with ⟨k'', hk'', -, rfl⟩
    obtain rfl : k = k' := by omega
    obtain rfl : k = k'' := by omega
    rw [hfor.2] at h
    exact Or.inr ⟨k, g, hfor, hmin, hdrop, (Option.some.inj h).symm⟩
  -- The mutex has none: it gets an empty slot.
  · rw [if_pos rfl] at h
    simp only [Option.bind_eq_some_iff] at h
    rcases h with ⟨eidx, he, node, hn, locklist, hw, h⟩
    rcases CArray.read_eq_some hn with ⟨k, hk, hlt, rfl⟩
    rcases CArray.write_eq_some hw with ⟨k', hk', -, rfl⟩
    obtain rfl : k = k' := by omega
    refine Or.inl ⟨hno, k, hlt, ?_, (Option.some.inj h).symm⟩
    rcases LockList.searchEmptyLock_eq_some he with ⟨i, hi, hfor⟩ | ⟨hi, hall⟩
    · obtain rfl : k = i := by omega
      exact Or.inl hfor
    · exact Or.inr ⟨by omega, hall⟩

/-- `unlock_after` looks at the first slot of the mutex, and clears it when
    nobody is counted there. -/
theorem unlockAfter_eq_some {t m : Nat} {tg tg' : TaskGraph}
    (h : tg.unlockAfter t m = some tg') :
    ∃ k : Nat, tg.locks.IsFor k m ∧ (∀ j < k, ¬ tg.locks.IsFor j m) ∧
      (((tg.locks.locklist.cell k).degress ≠ 0 ∧ tg' = tg) ∨
        ((tg.locks.locklist.cell k).degress = 0 ∧
          tg' = ⟨⟨tg.vertices.list, tg.vertices.num - 1⟩,
            ⟨tg.locks.locklist.set k ⟨0, 0, (tg.locks.locklist.cell k).degress⟩,
              tg.locks.lockidx - 1⟩⟩)) := by
  simp only [unlockAfter, Option.bind_eq_bind, Option.bind_eq_some_iff] at h
  rcases h with ⟨idx, hidx, node, hn, h⟩
  rcases CArray.read_eq_some hn with ⟨k, rfl, -, rfl⟩
  rcases LockList.searchLock_eq_some hidx with ⟨k', hk', hfor, hmin⟩ | ⟨hk', -⟩
  · obtain rfl : k = k' := by omega
    refine ⟨k, hfor, hmin, ?_⟩
    by_cases hd : (tg.locks.locklist.cell k).degress = 0
    · rw [if_pos hd] at h
      simp only [Option.bind_eq_some_iff] at h
      rcases h with ⟨locklist, hw, h⟩
      rcases CArray.write_eq_some hw with ⟨k', hk', -, rfl⟩
      obtain rfl : k = k' := by omega
      exact Or.inr ⟨hd, (Option.some.inj h).symm⟩
    · rw [if_neg hd] at h
      exact Or.inl ⟨hd, (Option.some.inj h).symm⟩
  -- The index -1 is outside the array, so the read has no result.
  · omega

end TaskGraph

end DeadlockDetector

end BlogSample
