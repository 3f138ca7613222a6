import BlogSample.DeadlockDetector.Search
import BlogSample.DeadlockDetector.Threads

/-!
# The Indices of the Deadlock Detector

When every access stays within its array. Two counters decide that. `num`
never passes `MAX`, because the vertices below it are distinct threads; but it
is decremented at every release that clears a slot, whether or not the lock
ever had a vertex. `lockidx` is no stack height, yet it does count something:
the slots in use among those that have ever been written. Each call of
`lock_after` that makes a slot takes an empty one, and each call of
`unlock_after` that finds one empties it.

## Main definitions

* `Roomy`: A graph that has room for the threads without a vertex.
* `Counted`: `lockidx` is the number of slots in use.
* `Placed`, `Fits`: Both, without and with a `num` that is right.
* `InBounds`: The steps that keep to the arrays.
* `InRange`: The counters, the next step and the check keep to the arrays.

## Theorems

* `requestEdge_total`, `dropEdge_total`: The graph operations have a result.
* `lockBefore_total`, `lockAfter_total`, `unlockAfter_total`: The hooks too.
* `fits_lockBefore`, `fits_lockAfter`, `fits_unlockAfter`: `num` stays right.
* `indices_inRange`: In such runs every index is in range.
* `num_negative`: One uncontended `lock` and `unlock` make `num` negative.
-/

namespace BlogSample

namespace DeadlockDetector

open Transition TaskGraph VertexList LockList

/-! ### The graph -/

/-- A graph with no more vertices than threads, `num` not being negative. -/
structure Roomy (threads : Finset Nat) (g : VertexList) : Prop where
  wf : g.Wf
  num_nonneg : 0 ≤ g.num
  mem : ∀ x, g.HasVertex x → x ∈ threads

section Edges

variable {g : VertexList} (hg : g.Wf)
include hg

theorem lt_max_of_wf {i : Nat} (hi : (i : Int) < g.num) : i < MAX := by
  have := hg.num_le
  omega

theorem verifyEdge_total (a b : Nat) : ∃ r, g.verifyEdge (process a) (process b) = some r := by
  rw [verifyEdge]
  by_cases hnum : g.num = 0
  · exact ⟨false, if_pos hnum⟩
  · rw [if_neg hnum]
    rcases searchVertex_total hg (process a) with ⟨r, hr⟩
    simp only [hr, Option.bind_eq_bind, Option.bind_some]
    rcases searchVertex_eq_some hg hr with ⟨i, rfl, hi, -⟩ | ⟨rfl, -⟩
    · rw [if_neg (by omega), CArray.read_of_lt g.list (lt_max_of_wf hg hi)]
      exact ⟨_, rfl⟩
    · exact ⟨false, rfl⟩

theorem removeEdge_total (a b : Nat) :
    ∃ g', g.removeEdge (process a) (process b) = some g' := by
  rcases searchVertex_total hg (process a) with ⟨r, hr⟩
  rcases searchVertex_total hg (process b) with ⟨r', hr'⟩
  simp only [removeEdge, hr, hr', Option.bind_eq_bind, Option.bind_some]
  by_cases hc : r ≠ -1 ∧ r' ≠ -1
  · rw [if_pos hc]
    rcases searchVertex_eq_some hg hr with ⟨i, rfl, hi, -⟩ | ⟨rfl, -⟩
    · have hlt := lt_max_of_wf hg hi
      simp only [CArray.read_of_lt g.list hlt, CArray.write_of_lt g.list hlt, Option.bind_some]
      exact ⟨_, rfl⟩
    · exact absurd rfl hc.1
  · exact ⟨g, if_neg hc⟩

/-- Taking an edge away never leaves the list. -/
theorem dropEdge_total (t x : Nat) : ∃ g', dropEdge g t x = some g' := by
  rcases verifyEdge_total hg t x with ⟨linked, hl⟩
  simp only [dropEdge, hl, Option.bind_eq_bind, Option.bind_some]
  cases linked with
  | true => exact removeEdge_total hg t x
  | false => exact ⟨g, rfl⟩

end Edges

section Room

variable {threads : Finset Nat} (hle : threads.card ≤ MAX) {g g' : VertexList}
  (hg : Roomy threads g)
include hg

theorem roomy_addVertex {x : Nat} (hx : x ∈ threads)
    (h : g.addVertex (process x) = some g') : Roomy threads g' where
  wf := wf_addVertex hg.wf h
  num_nonneg := by
    rcases (hasVertex_addVertex hg.wf h x).mpr (Or.inr rfl) with ⟨i, hi, -⟩
    omega
  mem := fun y hy => by
    rcases (hasVertex_addVertex hg.wf h y).mp hy with hy | rfl
    · exact hg.mem y hy
    · exact hx

/-- A thread without a vertex leaves room for one. -/
theorem num_lt {x : Nat} (hx : x ∈ threads) (hno : ¬ g.HasVertex x) :
    g.num < (threads.card : Int) := by
  have hmaps : ∀ i ∈ Finset.range g.num.toNat, (g.list.cell i).node.id ∈ threads.erase x := by
    intro i hi
    have hi' := Finset.mem_range.mp hi
    have hv : g.HasVertex (g.list.cell i).node.id := ⟨i, by omega, rfl⟩
    refine Finset.mem_erase.mpr ⟨fun heq => hno (heq ▸ hv), hg.mem _ hv⟩
  have hinj : Set.InjOn (fun i => (g.list.cell i).node.id) (Finset.range g.num.toNat) := by
    intro i hi j hj hid
    have hi' := Finset.mem_range.mp hi
    have hj' := Finset.mem_range.mp hj
    exact hg.wf.distinct i j (by omega) (by omega) hid
  have hcard := Finset.card_le_card_of_injOn _ hmaps hinj
  have hpos := Finset.card_pos.mpr ⟨x, hx⟩
  rw [Finset.card_range, Finset.card_erase_of_mem hx] at hcard
  omega

include hle in
theorem addVertex_total {x : Nat} (hx : x ∈ threads) :
    ∃ g', g.addVertex (process x) = some g' ∧ Roomy threads g' := by
  have hsome : ∃ g', g.addVertex (process x) = some g' := by
    rcases searchVertex_total hg.wf (process x) with ⟨r, hr⟩
    simp only [addVertex, hr, Option.bind_eq_bind, Option.bind_some]
    rcases searchVertex_eq_some hg.wf hr with ⟨i, rfl, -⟩ | ⟨rfl, hno⟩
    · have hi : ¬ (i : Int) = -1 := by omega
      exact ⟨g, if_neg hi⟩
    · have hlt := num_lt hg hx hno
      have hnn := hg.num_nonneg
      have hnum : ((g.num.toNat : Nat) : Int) = g.num := by omega
      have hwrite := CArray.write_of_lt g.list (i := g.num.toNat) (by omega)
        (Vertex.mk (process x) [])
      rw [hnum] at hwrite
      rw [if_pos rfl, hwrite]
      exact ⟨_, rfl⟩
  rcases hsome with ⟨g', h⟩
  exact ⟨g', h, roomy_addVertex hg hx h⟩

include hle in
theorem addEdge_total {a b : Nat} (ha : a ∈ threads) (hb : b ∈ threads) :
    ∃ g', g.addEdge (process a) (process b) = some g' := by
  rcases addVertex_total hle hg ha with ⟨g₁, h₁, hg₁⟩
  rcases addVertex_total hle hg₁ hb with ⟨g₂, h₂, hg₂⟩
  have hv : g₂.HasVertex a := (hasVertex_addVertex hg₁.wf h₂ a).mpr
    (Or.inl ((hasVertex_addVertex hg.wf h₁ a).mpr (Or.inr rfl)))
  rcases hv with ⟨i, hi, hid⟩
  have hlt := lt_max_of_wf hg₂.wf hi
  have hsearch : g₂.searchVertex (process a) = some (i : Int) :=
    hid ▸ searchVertex_of_lt hg₂.wf hi
  simp only [addEdge, h₁, h₂, hsearch, CArray.read_of_lt g₂.list hlt,
    CArray.write_of_lt g₂.list hlt, Option.bind_eq_bind, Option.bind_some]
  exact ⟨_, rfl⟩

include hle in
/-- A request of a thread has a result. -/
theorem requestEdge_total {t x : Nat} (ht : t ∈ threads) (hx : x ∈ threads) :
    ∃ g', requestEdge g t x = some g' ∧ Roomy threads g' := by
  have hsome : ∃ g', requestEdge g t x = some g' := by
    rcases addVertex_total hle hg ht with ⟨g₁, h₁, hg₁⟩
    rcases addVertex_total hle hg₁ hx with ⟨g₂, h₂, hg₂⟩
    rcases verifyEdge_total hg₂.wf t x with ⟨linked, hl⟩
    simp only [requestEdge, h₁, h₂, hl, Option.bind_eq_bind, Option.bind_some]
    cases linked with
    | true => exact ⟨g₂, rfl⟩
    | false => exact addEdge_total hle hg₂ ht hx
  rcases hsome with ⟨g', h⟩
  rcases requestEdge_eq_some hg.wf h with ⟨hwf, hv, -⟩
  refine ⟨g', h, hwf, ?_, fun y hy => ?_⟩
  · rcases (hv t).mpr (Or.inr (Or.inl rfl)) with ⟨i, hi, -⟩
    omega
  · rcases (hv y).mp hy with hy | rfl | rfl
    · exact hg.mem y hy
    · exact ht
    · exact hx

end Room

section Graph

variable {threads : Finset Nat} {g g' : VertexList} (hg : Sized threads g)
include hg

theorem sized_dropEdge {t x : Nat} (h : dropEdge g t x = some g') : Sized threads g' := by
  rcases dropEdge_eq_some hg.wf h with ⟨hwf, hnum, hv, he⟩
  exact ⟨hwf, hnum ▸ hg.num_nonneg, fun y hy => hg.mem y ((hv y).mp hy),
    fun a b hab => (hv b).mpr (hg.target a b ((he a b).mp hab).1)⟩

/-- Hiding the last vertex, when no other vertex has an edge to it. -/
theorem sized_hide (hpos : 0 < g.num) (hlast : ∀ i : Nat, (i : Int) + 1 = g.num →
    ∀ a, g.Edge a (g.list.cell i).node.id → a = (g.list.cell i).node.id) :
    Sized threads ⟨g.list, g.num - 1⟩ where
  wf := wf_hide hg.wf
  num_nonneg := by
    change 0 ≤ g.num - 1
    omega
  mem := by
    rintro x ⟨i, hi, hid⟩
    have hi' : (i : Int) < g.num - 1 := hi
    exact hg.mem x ⟨i, by omega, hid⟩
  target := by
    rintro a b ⟨i, hi, ha, hb⟩
    have hi' : (i : Int) < g.num - 1 := hi
    have hedge : g.Edge a b := ⟨i, by omega, ha, hb⟩
    rcases hg.target a b hedge with ⟨j, hj, hjd⟩
    refine ⟨j, ?_, hjd⟩
    by_contra hjl
    have hjn : (j : Int) + 1 = g.num := by
      have : ¬ (j : Int) < g.num - 1 := hjl
      omega
    have hab := hlast j hjn a (hjd ▸ hedge)
    have := hg.wf.distinct i j (by omega) hj (ha.trans hab)
    omega

end Graph

/-! ### The lock table -/

/-- The slots in use among the first `n`. -/
def inUse (l : LockList) (n : Nat) : Finset Nat :=
  (Finset.range n).filter (fun i => (l.locklist.cell i).lockId ≠ 0)

/-- The first `n` slots are those that have been written; `lockidx` counts the
    ones in use, each of which names a thread. -/
structure Counted (threads : Finset Nat) (l : LockList) (n : Nat) : Prop where
  le : n ≤ MAX
  count : l.lockidx = (inUse l n).card
  owner : ∀ i < n, (l.locklist.cell i).lockId ≠ 0 → (l.locklist.cell i).id ∈ threads

theorem mem_inUse {l : LockList} {n i : Nat} :
    i ∈ inUse l n ↔ i < n ∧ (l.locklist.cell i).lockId ≠ 0 := by
  rw [inUse, Finset.mem_filter, Finset.mem_range]

theorem inUse_card_le (l : LockList) (n : Nat) : (inUse l n).card ≤ n := by
  have := Finset.card_filter_le (Finset.range n) (fun i => (l.locklist.cell i).lockId ≠ 0)
  rwa [Finset.card_range] at this

section Table

variable {threads : Finset Nat} {l : LockList} {n : Nat} (hl : Counted threads l n)
include hl

theorem Counted.lockidx_range : 0 ≤ l.lockidx ∧ l.lockidx ≤ n ∧ l.lockidx ≤ MAX := by
  have h₁ := inUse_card_le l n
  have h₂ := hl.le
  have h₃ := hl.count
  omega

/-- A slot for a mutex has been written. -/
theorem Counted.isFor_lt {k m : Nat} (hk : l.IsFor k m) : k < n := by
  have h₁ := hl.lockidx_range
  have h₂ := hk.1
  omega

theorem Counted.isFor_owner {k m : Nat} (hm : m ≠ 0) (hk : l.IsFor k m) :
    (l.locklist.cell k).id ∈ threads :=
  hl.owner k (hl.isFor_lt hk) (by rw [hk.2]; exact hm)

theorem searchLock_total (m : Nat) : ∃ r, l.searchLock m = some r :=
  CArray.scan_total _ _ hl.lockidx_range.2.2

theorem searchEmptyLock_total (m : Nat) : ∃ r, l.searchEmptyLock m = some r := by
  rcases CArray.scan_total l.locklist (fun n => n.lockId == 0) hl.lockidx_range.2.2 with ⟨r, hr⟩
  simp only [searchEmptyLock, hr, Option.bind_eq_bind, Option.bind_some]
  by_cases hc : r = -1
  · exact ⟨_, if_pos hc⟩
  · exact ⟨_, if_neg hc⟩

/-- Handing a slot over to a thread. -/
theorem counted_handOver {k m t : Nat} (hk : l.IsFor k m) (ht : t ∈ threads) (d : Int) :
    Counted threads ⟨l.locklist.set k ⟨t, m, d⟩, l.lockidx⟩ n where
  le := hl.le
  count := by
    have hsame : inUse ⟨l.locklist.set k ⟨t, m, d⟩, l.lockidx⟩ n = inUse l n := by
      ext i
      rw [mem_inUse, mem_inUse]
      by_cases hi : i = k
      · rw [hi, CArray.cell_set_self, hk.2]
      · rw [CArray.cell_set_of_ne _ hi]
    rw [hsame]
    exact hl.count
  owner := fun i hi hid => by
    by_cases hik : i = k
    · rw [hik, CArray.cell_set_self]
      exact ht
    · rw [CArray.cell_set_of_ne _ hik] at hid ⊢
      exact hl.owner i hi hid

/-- Taking an empty slot, or the first one that has never been written. -/
theorem counted_fill {k m t : Nat} (hk : k < MAX) (hkn : k ≤ n)
    (hempty : k < n → (l.locklist.cell k).lockId = 0) (hm : m ≠ 0) (ht : t ∈ threads) (d : Int) :
    Counted threads ⟨l.locklist.set k ⟨t, m, d⟩, l.lockidx + 1⟩ (max n (k + 1)) where
  le := Nat.max_le.mpr ⟨hl.le, hk⟩
  count := by
    have hnot : k ∉ inUse l n := fun h => (mem_inUse.mp h).2 (hempty (mem_inUse.mp h).1)
    -- The slot was empty, and is the one slot more that is in use.
    have hins : inUse ⟨l.locklist.set k ⟨t, m, d⟩, l.lockidx + 1⟩ (max n (k + 1))
        = insert k (inUse l n) := by
      ext i
      rw [Finset.mem_insert, mem_inUse, mem_inUse]
      by_cases hi : i = k
      · subst hi
        rw [CArray.cell_set_self]
        exact iff_of_true ⟨by omega, hm⟩ (Or.inl rfl)
      · rw [CArray.cell_set_of_ne _ hi]
        constructor
        · rintro ⟨hlt, hid⟩
          exact Or.inr ⟨by omega, hid⟩
        · rintro (h | ⟨hlt, hid⟩)
          · exact absurd h hi
          · exact ⟨by omega, hid⟩
    rw [hins, Finset.card_insert_of_notMem hnot, hl.count]
    rfl
  owner := fun i hi hid => by
    by_cases hik : i = k
    · rw [hik, CArray.cell_set_self]
      exact ht
    · rw [CArray.cell_set_of_ne _ hik] at hid ⊢
      exact hl.owner i (by omega) hid

/-- Emptying a slot in use. -/
theorem counted_clear {k m : Nat} (hk : l.IsFor k m) (hm : m ≠ 0) (d : Int) :
    Counted threads ⟨l.locklist.set k ⟨0, 0, d⟩, l.lockidx - 1⟩ n where
  le := hl.le
  count := by
    have hmem : k ∈ inUse l n := mem_inUse.mpr ⟨hl.isFor_lt hk, by rw [hk.2]; exact hm⟩
    have herase : inUse ⟨l.locklist.set k ⟨0, 0, d⟩, l.lockidx - 1⟩ n = (inUse l n).erase k := by
      ext i
      rw [Finset.mem_erase, mem_inUse, mem_inUse]
      by_cases hi : i = k
      · rw [hi, CArray.cell_set_self]
        exact iff_of_false (fun h => h.2 rfl) (fun h => h.1 rfl)
      · rw [CArray.cell_set_of_ne _ hi]
        exact ⟨fun h => ⟨hi, h⟩, fun h => h.2⟩
    have hcard := Finset.card_erase_add_one hmem
    have hcount := hl.count
    rw [herase]
    change l.lockidx - 1 = _
    omega
  owner := fun i hi hid => by
    by_cases hik : i = k
    · rw [hik, CArray.cell_set_self] at hid
      exact absurd rfl hid
    · rw [CArray.cell_set_of_ne _ hik] at hid ⊢
      exact hl.owner i hi hid

/-- With all slots below `lockidx` in use, the next one is empty. -/
theorem Counted.empty_next {k : Nat} (hk : (k : Int) = l.lockidx)
    (hall : ∀ i, ¬ l.IsFor i 0) (hkn : k < n) : (l.locklist.cell k).lockId = 0 := by
  by_contra hid
  have hsub : Finset.range (k + 1) ⊆ inUse l n := by
    intro i hi
    have hi' := Finset.mem_range.mp hi
    refine mem_inUse.mpr ⟨by omega, fun h0 => ?_⟩
    by_cases hik : i = k
    · exact hid (hik ▸ h0)
    · exact hall i ⟨by omega, h0⟩
  have hcard := Finset.card_le_card hsub
  rw [Finset.card_range] at hcard
  have := hl.count
  omega

end Table

/-- Slots that keep their mutexes and threads keep their count. -/
theorem Counted.congr {threads : Finset Nat} {l l' : LockList} {n : Nat}
    (hl : Counted threads l n) (hidx : l'.lockidx = l.lockidx)
    (hcell : ∀ i, (l'.locklist.cell i).lockId = (l.locklist.cell i).lockId ∧
      (l'.locklist.cell i).id = (l.locklist.cell i).id) : Counted threads l' n where
  le := hl.le
  count := by
    have hsame : inUse l' n = inUse l n := by
      ext i
      rw [mem_inUse, mem_inUse, (hcell i).1]
    rw [hidx, hsame]
    exact hl.count
  owner := fun i hi hid => by
    rw [(hcell i).1] at hid
    rw [(hcell i).2]
    exact hl.owner i hi hid

/-! ### The hooks -/

/-- A graph and a lock table that hold threads only, whatever `num` is. -/
structure Placed (threads : Finset Nat) (tg : TaskGraph) : Prop where
  wf : tg.vertices.Wf
  mem : ∀ x, tg.vertices.HasVertex x → x ∈ threads
  slots : ∃ n, Counted threads tg.locks n

/-- A graph and a lock table that keep to their arrays. -/
def Fits (threads : Finset Nat) (tg : TaskGraph) : Prop :=
  Sized threads tg.vertices ∧ ∃ n, Counted threads tg.locks n

theorem Fits.placed {threads : Finset Nat} {tg : TaskGraph} (hf : Fits threads tg) :
    Placed threads tg :=
  ⟨hf.1.wf, hf.1.mem, hf.2⟩

section Hooks

variable {threads : Finset Nat} (hle : threads.card ≤ MAX) {tg : TaskGraph}
  (hp : Placed threads tg) {t m : Nat} (hm : m ≠ 0)
include hp

include hle hm in
/-- A round of `lock_before` has a result, unless it adds a vertex with `num`
    negative. -/
theorem lockBeforeSlot_total (ht : t ∈ threads) {k : Nat} (hk : (k : Int) < tg.locks.lockidx)
    (hroom : tg.locks.IsFor k m → 0 ≤ tg.vertices.num) :
    ∃ tg', lockBeforeSlot t m tg k = some tg' ∧ Placed threads tg' ∧
      (0 ≤ tg.vertices.num → 0 ≤ tg'.vertices.num) := by
  rcases hp.slots with ⟨n, hl⟩
  have hlt : k < MAX := by
    have := hl.lockidx_range
    omega
  by_cases hid : (tg.locks.locklist.cell k).lockId = m
  · have hfor : tg.locks.IsFor k m := ⟨hk, hid⟩
    rcases requestEdge_total hle ⟨hp.wf, hroom hfor, hp.mem⟩ ht (hl.isFor_owner hm hfor)
      with ⟨g, hreq, hg⟩
    have hround : ∃ tg', lockBeforeSlot t m tg k = some tg' ∧ tg'.vertices = g := by
      simp only [lockBeforeSlot, CArray.read_of_lt tg.locks.locklist hlt, Option.bind_eq_bind,
        Option.bind_some, if_pos hid, CArray.write_of_lt tg.locks.locklist hlt, hreq]
      exact ⟨_, rfl, rfl⟩
    rcases hround with ⟨tg', h', rfl⟩
    rcases lockBeforeSlot_locks h' with ⟨hidx, hcell⟩
    exact ⟨tg', h', ⟨hg.wf, hg.mem, n, hl.congr hidx hcell⟩, fun _ => hg.num_nonneg⟩
  · refine ⟨tg, ?_, hp, fun hnum => hnum⟩
    simp only [lockBeforeSlot, CArray.read_of_lt tg.locks.locklist hlt, Option.bind_eq_bind,
      Option.bind_some, if_neg hid]
    rfl

include hle hm in
/-- The rounds of `lock_before`. -/
theorem lockBeforeLoop_total (ht : t ∈ threads)
    (hroom : (∃ k, tg.locks.IsFor k m) → 0 ≤ tg.vertices.num) (k : Nat)
    (hk : (k : Int) ≤ tg.locks.lockidx) :
    ∃ tg', lockBeforeLoop t m tg k = some tg' ∧ Placed threads tg' ∧
      (0 ≤ tg.vertices.num → 0 ≤ tg'.vertices.num) := by
  induction k with
  | zero => exact ⟨tg, rfl, hp, fun hnum => hnum⟩
  | succ k ih =>
      rcases ih (by omega) with ⟨tg₁, h₁, hp₁, hnum₁⟩
      -- The rounds before have not changed what the slots are for.
      rcases lockBeforeLoop_locks k h₁ with ⟨hidx, hcell⟩
      have hroom₁ : tg₁.locks.IsFor k m → 0 ≤ tg₁.vertices.num := by
        rintro ⟨hlt, hid⟩
        exact hnum₁ (hroom ⟨k, hidx ▸ hlt, (hcell k).1 ▸ hid⟩)
      rcases lockBeforeSlot_total hle hp₁ hm ht (by omega) hroom₁ with ⟨tg', h', hp', hnum'⟩
      refine ⟨tg', ?_, hp', fun hnum => hnum' (hnum₁ hnum)⟩
      simp only [lockBeforeLoop, h₁, Option.bind_eq_bind, Option.bind_some]
      exact h'

include hle hm in
/-- `lock_before` has a result, if `num` is not negative or the mutex has no
    slot. -/
theorem lockBefore_total (ht : t ∈ threads)
    (hroom : (∃ k, tg.locks.IsFor k m) → 0 ≤ tg.vertices.num) :
    ∃ tg', tg.lockBefore t m = some tg' ∧ Placed threads tg' ∧
      (0 ≤ tg.vertices.num → 0 ≤ tg'.vertices.num) := by
  rcases hp.slots with ⟨n, hl⟩
  have := hl.lockidx_range
  exact lockBeforeLoop_total hle hp hm ht hroom _ (by omega)

include hm in
/-- `lock_after` has a result if the mutex has a slot or the table is not
    full. -/
theorem lockAfter_total (ht : t ∈ threads)
    (hok : (∃ k, tg.locks.IsFor k m) ∨ tg.locks.lockidx < MAX) :
    ∃ tg', tg.lockAfter t m = some tg' ∧ Placed threads tg' := by
  rcases hp.slots with ⟨n, hl⟩
  have hrange := hl.lockidx_range
  rcases searchLock_total hl m with ⟨r, hr⟩
  simp only [lockAfter, hr, Option.bind_eq_bind, Option.bind_some]
  rcases searchLock_eq_some hr with ⟨k, rfl, hk, -⟩ | ⟨rfl, hno⟩
  -- The slot of the mutex is handed over.
  · have hlt : k < MAX := by
      have := hk.1
      omega
    rcases dropEdge_total hp.wf t (tg.locks.locklist.cell k).id with ⟨g, hdrop⟩
    rcases dropEdge_eq_some hp.wf hdrop with ⟨hwf, -, hv, -⟩
    rw [if_neg (by omega)]
    simp only [CArray.read_of_lt tg.locks.locklist hlt,
      CArray.write_of_lt tg.locks.locklist hlt, hdrop, Option.bind_some]
    refine ⟨_, rfl, hwf, fun x hx => hp.mem x ((hv x).mp hx), n, ?_⟩
    rw [hk.2]
    exact counted_handOver hl hk ht _
  -- An empty slot is taken, or the one at `lockidx`.
  · have hlt : tg.locks.lockidx < MAX := hok.resolve_left (not_exists.mpr hno)
    rcases searchEmptyLock_total hl m with ⟨e, he⟩
    rw [if_pos rfl]
    simp only [he, Option.bind_some]
    rcases searchEmptyLock_eq_some he with ⟨k, rfl, hk⟩ | ⟨rfl, hall⟩
    · have hkl := hk.1
      have hkm : k < MAX := by omega
      simp only [CArray.read_of_lt tg.locks.locklist hkm,
        CArray.write_of_lt tg.locks.locklist hkm, Option.bind_some]
      exact ⟨_, rfl, hp.wf, hp.mem, _,
        counted_fill hl hkm (by omega) (fun _ => hk.2) hm ht _⟩
    -- No slot is empty, and the table has room for one more.
    · obtain ⟨k, hk⟩ : ∃ k : Nat, (k : Int) = tg.locks.lockidx :=
        ⟨tg.locks.lockidx.toNat, by omega⟩
      have hkm : k < MAX := by omega
      rw [← hk]
      simp only [CArray.read_of_lt tg.locks.locklist hkm,
        CArray.write_of_lt tg.locks.locklist hkm, Option.bind_some]
      refine ⟨_, rfl, hp.wf, hp.mem, max n (k + 1), ?_⟩
      rw [hk]
      exact counted_fill hl hkm (by omega) (hl.empty_next hk hall) hm ht _

include hm in
/-- `unlock_after` has a result if the mutex has a slot. -/
theorem unlockAfter_total (hok : ∃ k, tg.locks.IsFor k m) :
    ∃ tg', tg.unlockAfter t m = some tg' ∧ Placed threads tg' := by
  rcases hp.slots with ⟨n, hl⟩
  have hrange := hl.lockidx_range
  rcases searchLock_total hl m with ⟨r, hr⟩
  rcases searchLock_eq_some hr with ⟨k, rfl, hk, -⟩ | ⟨-, hno⟩
  · have hlt : k < MAX := by
      have := hk.1
      omega
    simp only [unlockAfter, hr, CArray.read_of_lt tg.locks.locklist hlt,
      CArray.write_of_lt tg.locks.locklist hlt, Option.bind_eq_bind, Option.bind_some]
    by_cases hd : (tg.locks.locklist.cell k).degress = 0
    · rw [if_pos hd]
      refine ⟨_, rfl, wf_hide hp.wf, ?_, n, counted_clear hl hk hm _⟩
      rintro x ⟨i, hi, hid⟩
      have hi' : (i : Int) < tg.vertices.num - 1 := hi
      exact hp.mem x ⟨i, by omega, hid⟩
    · exact ⟨tg, if_neg hd, hp⟩
  · rcases hok with ⟨k, hk⟩
    exact absurd hk (hno k)

end Hooks

/-! ### The edges lead to vertices -/

section Fits

variable {threads : Finset Nat} {tg tg' : TaskGraph} (hf : Fits threads tg)
  (hp : Placed threads tg') {t m : Nat}
include hf hp

theorem fits_lockBefore (hnum : 0 ≤ tg'.vertices.num) (h : tg.lockBefore t m = some tg') :
    Fits threads tg' := by
  rcases lockBeforeLoop_edge hf.1.wf _ h with ⟨-, hv, he⟩
  refine ⟨⟨hp.wf, hnum, hp.mem, fun a b hab => ?_⟩, hp.slots⟩
  rcases (he a b).mp hab with hab | ⟨-, -, i, hi, hid, hb⟩
  · exact (hv b).mpr (Or.inl (hf.1.target a b hab))
  · exact (hv b).mpr (Or.inr ⟨i, hi, hid, Or.inr hb.symm⟩)

theorem fits_lockAfter (h : tg.lockAfter t m = some tg') : Fits threads tg' := by
  refine ⟨?_, hp.slots⟩
  rcases lockAfter_eq_some h with ⟨-, k, -, -, rfl⟩ | ⟨k, g, -, -, hdrop, rfl⟩
  · exact hf.1
  · exact sized_dropEdge hf.1 hdrop

/-- The vertex that goes with a slot must be there, and no other vertex have
    an edge to it. -/
theorem fits_unlockAfter (hok : ∀ k : Nat, tg.locks.IsFor k m →
      (∀ j < k, ¬ tg.locks.IsFor j m) → (tg.locks.locklist.cell k).degress = 0 →
        0 < tg.vertices.num ∧ ∀ i : Nat, (i : Int) + 1 = tg.vertices.num →
          ∀ a, tg.vertices.Edge a (tg.vertices.list.cell i).node.id →
            a = (tg.vertices.list.cell i).node.id)
    (h : tg.unlockAfter t m = some tg') : Fits threads tg' := by
  refine ⟨?_, hp.slots⟩
  rcases unlockAfter_eq_some h with ⟨k, hk, hmin, ⟨-, rfl⟩ | ⟨hd, rfl⟩⟩
  · exact hf.1
  · rcases hok k hk hmin hd with ⟨hpos, hlast⟩
    exact sized_hide hf.1 hpos hlast

end Fits

/-! ### Runs -/

/-- A step that keeps to the arrays. At `lock_after` the mutex has a slot or
    the table is not full. At `unlock_after` the mutex has a slot, and if it is
    to be cleared there is a vertex to hide, and no other vertex has an edge
    to it. -/
def InBounds (s : State) : Action → Prop
  | .lockAfter _ m => (∃ k, s.tg.locks.IsFor k m) ∨ s.tg.locks.lockidx < MAX
  | .unlockAfter _ m => ∃ k : Nat, s.tg.locks.IsFor k m ∧
      (∀ j < k, ¬ s.tg.locks.IsFor j m) ∧ ((s.tg.locks.locklist.cell k).degress = 0 →
        0 < s.tg.vertices.num ∧ ∀ i : Nat, (i : Int) + 1 = s.tg.vertices.num →
          ∀ a, s.tg.vertices.Edge a (s.tg.vertices.list.cell i).node.id →
            a = (s.tg.vertices.list.cell i).node.id)
  | _ => True

instance (s : State) : DecidablePred (InBounds s)
  | .lockBefore _ _ => .isTrue trivial
  | .acquire _ _ => .isTrue trivial
  | .lockAfter _ _ => inferInstanceAs (Decidable (_ ∨ _))
  | .release _ _ => .isTrue trivial
  | .unlockAfter _ m => inferInstanceAs (Decidable (∃ k : Nat, s.tg.locks.IsFor k m ∧ _))

theorem fits_initial (w : Setting) {s : State} (h : Initial s) : Fits w.threads s.tg := by
  have hno : ∀ i : Nat, ¬ (i : Int) < s.tg.vertices.num := fun i hi => by
    rw [h.1] at hi
    omega
  refine ⟨⟨⟨?_, fun i hi => absurd hi (hno i), fun i hi => absurd hi (hno i),
    fun i j hi => absurd hi (hno i), fun i hi => absurd hi (hno i)⟩, ?_, ?_, ?_⟩, 0, ?_⟩
  · rw [h.1]
    exact Int.natCast_nonneg MAX
  · rw [h.1]
  · rintro x ⟨i, hi, -⟩
    exact absurd hi (hno i)
  · rintro a b ⟨i, hi, -⟩
    exact absurd hi (hno i)
  · exact ⟨Nat.zero_le _, h.2.1, fun i hi => absurd hi (Nat.not_lt_zero i)⟩

/-- A step that meets the condition has a result, which fits again. -/
theorem hook_total {w : Setting} {s : State} (hd : Disciplined w s) (hf : Fits w.threads s.tg)
    {a : Action} (hen : Enabled w s a) (hok : InBounds s a) :
    ∃ tg, hook s.tg a = some tg ∧ Fits w.threads tg := by
  have hne : ∀ m ∈ w.mutexes, m ≠ 0 := by
    rintro m hm rfl
    exact w.mutexes_ne hm
  cases a with
  | lockBefore t m =>
      rcases lockBefore_total w.threads_le hf.placed (hne m hen.2.1) hen.1
        (fun _ => hf.1.num_nonneg) with ⟨tg, htg, hp, hnum⟩
      exact ⟨tg, htg, fits_lockBefore hf hp (hnum hf.1.num_nonneg) htg⟩
  | acquire t m => exact ⟨s.tg, rfl, hf⟩
  | lockAfter t m =>
      have hacq : s.phase t = .acquired m := hen
      rcases lockAfter_total hf.placed (hne m (hd.mutex t m (Or.inr (Or.inl hacq))))
        (hd.thread t (by rw [hacq]; exact nofun)) hok with ⟨tg, htg, hp⟩
      exact ⟨tg, htg, fits_lockAfter hf hp htg⟩
  | release t m => exact ⟨s.tg, rfl, hf⟩
  | unlockAfter t m =>
      have hrel : s.phase t = .released m := hen
      -- The condition is about the first slot of the mutex, which is the one it finds.
      rcases hok with ⟨k, hk, hmin, hzero⟩
      rcases unlockAfter_total (t := t) hf.placed
        (hne m (hd.mutex t m (Or.inr (Or.inr hrel)))) ⟨k, hk⟩ with ⟨tg, htg, hp⟩
      refine ⟨tg, htg, fits_unlockAfter hf hp (fun k' hk' hmin' => ?_) htg⟩
      rw [← first_unique hk hmin hk' hmin']
      exact hzero

theorem reachable_fits {w : Setting} {s : State}
    (h : ((detector w).restrict InBounds).Reachable s) :
    Disciplined w s ∧ Fits w.threads s.tg := by
  refine h.invariant (fun s => Disciplined w s ∧ Fits w.threads s.tg) ?_ ?_
  · exact fun s hs => ⟨disciplined_initial w hs, fits_initial w hs⟩
  · rintro s a s' ⟨hd, hf⟩ ⟨hok, hst⟩
    refine ⟨disciplined_step hd hst, ?_⟩
    rcases step_eq_some hst with ⟨hen, tg, htg, rfl⟩
    rcases hook_total hd hf hen hok with ⟨tg', htg', hf'⟩
    obtain rfl : tg' = tg := Option.some.inj (htg'.symm.trans htg)
    cases a <;> exact hf'

/-- The counters are in range, and so is every index that the next hook or
    `check_dead_lock` uses. -/
def InRange (w : Setting) (s : State) : Prop :=
  (0 ≤ s.tg.vertices.num ∧ s.tg.vertices.num ≤ MAX) ∧
    (0 ≤ s.tg.locks.lockidx ∧ s.tg.locks.lockidx ≤ MAX) ∧
    (∀ a, Enabled w s a → InBounds s a → ∃ tg, hook s.tg a = some tg) ∧
    ∀ d : Search, ∃ d', Search.checkDeadLock s.tg.vertices d = some d'

/-- In the runs whose steps all meet the condition, every index is in range,
    the search for a cycle included. -/
theorem indices_inRange (w : Setting) (s : State)
    (h : ((detector w).restrict InBounds).Reachable s) : InRange w s := by
  rcases reachable_fits h with ⟨hd, hf⟩
  refine ⟨⟨hf.1.num_nonneg, hf.1.wf.num_le⟩, ?_, fun a hen hok => ?_,
    Search.checkDeadLock_total hf.1.closed⟩
  · rcases hf.2 with ⟨n, hl⟩
    exact ⟨hl.lockidx_range.1, hl.lockidx_range.2.2⟩
  · rcases hook_total hd hf hen hok with ⟨tg, htg, -⟩
    exact ⟨tg, htg⟩

/-- A mutex goes from one thread to another that has waited for it, and both
    unlock it. -/
theorem indices_inRange_handOver : ∃ s,
    System.exec (step twoThreads) start
      (lock 1 1 ++ [.lockBefore 2 1] ++ unlock 1 1 ++ [.acquire 2 1, .lockAfter 2 1] ++
        unlock 2 1) = some s ∧
      s.tg.vertices.num = 1 ∧ InRange twoThreads s := by
  -- Every step of the trace is tested for the condition.
  rcases System.exists_exec (System.guarded (fun s a => decide (InBounds s a)) (step twoThreads))
    start (lock 1 1 ++ [.lockBefore 2 1] ++ unlock 1 1 ++ [.acquire 2 1, .lockAfter 2 1] ++
      unlock 2 1) (fun s => s.tg.vertices.num == 1) (by decide +kernel) with ⟨s, hs, hp⟩
  have hreach : ((detector twoThreads).restrict InBounds).Reachable s :=
    System.restrict_reachable_of_guarded (fun _ _ h => of_decide_eq_true h) _ start s
      (.init start initial_start) hs
  exact ⟨s, System.exec_of_guarded hs, beq_iff_eq.mp hp, indices_inRange twoThreads s hreach⟩

/-- Locking and unlocking a mutex nobody else wants makes `num` negative, and
    the next request that meets a holder writes in front of the list. -/
theorem num_negative : ∃ s,
    System.exec (step twoThreads) start (lock 1 1 ++ unlock 1 1 ++ lock 1 1) = some s ∧
      s.tg.vertices.num = -1 ∧ Enabled twoThreads s (.lockBefore 2 1) ∧
      hook s.tg (.lockBefore 2 1) = none := by
  rcases System.exists_exec (step twoThreads) start (lock 1 1 ++ unlock 1 1 ++ lock 1 1)
    (fun s => s.tg.vertices.num == -1 && decide (Enabled twoThreads s (.lockBefore 2 1)) &&
      (hook s.tg (.lockBefore 2 1)).isNone) (by rfl) with ⟨s, hs, hp⟩
  rw [Bool.and_eq_true, Bool.and_eq_true, beq_iff_eq, decide_eq_true_eq,
    Option.isNone_iff_eq_none] at hp
  exact ⟨s, hs, hp.1.1, hp.1.2, hp.2⟩

end DeadlockDetector

end BlogSample
