import BlogSample.DeadlockDetector.Cycles
import BlogSample.DeadlockDetector.Threads

/-!
# The Thread that Breaks Deadlocks

`thread_routine` checks for a deadlock once a second. When there is one it looks
for the entries of `path` that are `1`, and signals the threads that the lock
table has at the same positions.

An entry of `path` is the number of a vertex, and a position says how many
steps the search went before it came to that vertex. So what is looked for is
whether the search came to the vertex with the number one, and the slot it
leads to has nothing to do with that vertex.

Where no vertex has two edges, the search that reports the deadlock is the walk
from the first vertex that a cycle can be reached from.

## Main definitions

* `threadRoutine`: One round of `thread_routine`, with the threads it signals.
* `OutDegreeLeOne`: No vertex has two edges.
* `OnCycle`: A thread has a vertex on a cycle.
* `FirstOnto`: The first vertex that a cycle can be reached from.

## Theorems

* `dfs_trail`: The search, and what it puts on the path.
* `checkDeadLock_path`: What is on the path when a deadlock is reported.
* `threadRoutine_breaks_iff`: When the signals go to threads on a cycle.
-/

namespace BlogSample

namespace DeadlockDetector

open DepthFirst Transition

/-- The loop of `thread_routine` over the first positions of `path`. -/
def signals (tg : TaskGraph) (s : Search) : Option (List Nat) :=
  (List.range MAX).foldlM (fun tids (i : Nat) => do
    let idx ← s.path.read i
    if idx = 1 then do
      let node ← tg.locks.locklist.read i
      pure (tids ++ [node.id])
    else pure tids) []

/-- One round of `thread_routine`, with the threads that it signals. -/
def threadRoutine (tg : TaskGraph) (s : Search) : Option (Search × List Nat) := do
  let s ← Search.checkDeadLock tg.vertices s
  if s.deadlock = 1 then do
    let tids ← signals tg s
    pure (s, tids)
  else pure (s, [])

/-- No vertex has two edges. -/
def OutDegreeLeOne (g : VertexList) : Prop :=
  ∀ i : Nat, (i : Int) < g.num → (g.list.cell i).next.length ≤ 1

/-- The id of a vertex on a cycle. -/
def OnCycle (g : VertexList) (tid : Nat) : Prop :=
  ∃ i, (g.list.cell i).node.id = tid ∧ Relation.TransGen (fun a b => b ∈ succ g a) i i

/-- The first vertex that a cycle can be reached from. -/
def FirstOnto (g : VertexList) (i : Nat) : Prop :=
  ReachesCycle (succ g) i ∧ ∀ j < i, ¬ReachesCycle (succ g) j

/-! ### What is put on the path -/

namespace Search

/-- Vertices are put on the path from a position on. -/
structure Puts (k : Nat) (xs : List Nat) (s t : Search) : Prop where
  on : ∀ p x : Nat, xs[p]? = some x → t.path.cell (k + p) = x
  off : ∀ l, l < k ∨ k + xs.length ≤ l → t.path.cell l = s.path.cell l

theorem push_some {s t : Search} {i : Nat} (h : s.push i = some t) :
    ∃ k : Nat, s.k = k ∧ k < MAX + 1 ∧ t = { s with path := s.path.set k i, k := s.k + 1 } := by
  simp only [push, Option.bind_eq_bind, Option.bind_eq_some_iff] at h
  rcases h with ⟨path, hpath, h⟩
  rcases CArray.write_eq_some hpath with ⟨k, hk, hlt, rfl⟩
  exact ⟨k, hk, hlt, (Option.some.inj h).symm⟩

theorem puts_push (s : Search) (k i : Nat) (v : CArray Int MAX) (k' : Int) :
    Puts k [i] s { s with visited := v, path := s.path.set k i, k := k' } := by
  refine ⟨fun p x hx => ?_, fun l hl => ?_⟩
  · cases p with
    | zero =>
        cases hx
        exact CArray.cell_set_self ..
    | succ p => cases hx
  · rw [List.length_singleton] at hl
    exact CArray.cell_set_of_ne _ (by omega) _

/-- One vertex, and then those behind it. -/
theorem Puts.cons {k i : Nat} {xs : List Nat} {s t u : Search} (h : Puts k [i] s t)
    (h' : Puts (k + 1) xs t u) : Puts k (i :: xs) s u := by
  refine ⟨fun p x hx => ?_, fun l hl => ?_⟩
  · cases p with
    | zero =>
        exact (h'.off k (.inl (Nat.lt_succ_self k))).trans (h.on 0 x hx)
    | succ p =>
        rw [List.getElem?_cons_succ] at hx
        rw [show k + (p + 1) = k + 1 + p by omega]
        exact h'.on p x hx
  · rw [List.length_cons] at hl
    rw [h'.off l (by omega), h.off l (by rw [List.length_singleton]; omega)]

section

variable {g : VertexList} (hg : Closed g) (hdeg : OutDegreeLeOne g)
include hg hdeg

/-- Where no vertex has two edges, `DFS` is a trail, and puts it on the path. -/
theorem dfs_trail (fuel : Nat) : ∀ (s t : Search) (i : Nat), (i : Int) < g.num →
    dfs g fuel s i = some t → ∃ (k : Nat) (xs : List Nat) (f : Bool), s.k = k ∧
      Trail (succ g) (marked g s).1 i xs f ∧ Puts k xs s t ∧
      (t.deadlock = 1 ↔ s.deadlock = 1 ∨ f = true) := by
  induction fuel with
  | zero => exact fun s t i _ h => absurd h nofun
  | succ fuel ih =>
      intro s t i hi h
      by_cases hseen : s.visited.cell i = 1
      -- The vertex is put on the path once more, and the search is over.
      · rw [dfs_of_seen hg hi hseen] at h
        rcases Option.bind_eq_some_iff.mp h with ⟨u, hu, h⟩
        rcases Option.bind_eq_some_iff.mp h with ⟨v, hv, h⟩
        rcases push_some hu with ⟨k, hk, -, rfl⟩
        rcases printDeadlock_eq_some hv with ⟨output, rfl⟩
        cases h
        have hputs := puts_push s k i s.visited (s.k + 1)
        exact ⟨k, [i], true, hk, .seen _ i ((mem_marked hi).mpr hseen), ⟨hputs.on, hputs.off⟩,
          iff_of_true rfl (.inr rfl)⟩
      · have hnew : i ∉ (marked g s).1 := fun hmem => hseen ((mem_marked hi).mp hmem)
        rw [dfs_of_new hg hi hseen] at h
        rcases Option.bind_eq_some_iff.mp h with ⟨u, hu, hloop⟩
        rcases push_some hu with ⟨k, hk, -, rfl⟩
        change s.k = k at hk
        have hputs := puts_push s k i (s.visited.set i 1) (s.k + 1)
        have hsucc := succ_of_lt hi
        have hone := hdeg i hi
        have htarget (n : SourceNode) (hn : n ∈ (g.list.cell i).next) := edgeTarget_eq hg hi hn
        generalize (g.list.cell i).next = next at hloop hsucc hone htarget
        -- A vertex has no edge, or one; there the search goes on.
        rcases next with _ | ⟨n, _ | ⟨n', next⟩⟩
        · cases hloop
          exact ⟨k, [i], false, hk, .stop _ i hnew hsucc, hputs,
            (or_iff_left Bool.false_ne_true).symm⟩
        · rcases htarget n List.mem_cons_self with ⟨hn, hlt⟩
          simp only [List.foldlM_cons, List.foldlM_nil, hn, Option.bind_eq_bind,
            Option.bind_some, Option.bind_eq_some_iff] at hloop
          rcases hloop with ⟨v, ⟨w, hw, hv⟩, hvt⟩
          cases hv
          cases hvt
          rcases ih _ w _ hlt hw with ⟨k', xs, f, hk', htrail, hputs', hflag⟩
          obtain rfl : k' = k + 1 := by
            change s.k + 1 = k' at hk'
            omega
          rw [marked_set hi] at htrail
          have hall := hputs.cons hputs'
          exact ⟨k, i :: xs, f, hk, .go _ i _ xs f hnew hsucc htrail, ⟨hall.on, hall.off⟩, hflag⟩
        · simp only [List.length_cons] at hone
          omega

omit hg hdeg in
/-- What is on a path that began with one vertex and was clear behind it. -/
theorem Puts.cell_eq_one_iff {i : Nat} {xs : List Nat} {s t : Search} (h : Puts 1 xs s t)
    (hfirst : s.path.cell 0 = i) (hrest : ∀ l, 0 < l → l ≤ MAX → s.path.cell l = -1)
    {p : Nat} (hp : p ≤ MAX) : t.path.cell p = 1 ↔ (i :: xs)[p]? = some 1 := by
  cases p with
  | zero =>
      rw [h.off 0 (.inl Nat.one_pos), hfirst, List.getElem?_cons_zero, Option.some.injEq]
      exact Nat.cast_eq_one
  | succ p =>
      rw [List.getElem?_cons_succ, Nat.add_comm p 1]
      cases hx : xs[p]? with
      | none =>
          have hlen := List.getElem?_eq_none_iff.mp hx
          rw [h.off _ (by omega), hrest _ (by omega) (by omega)]
          exact iff_of_false (by decide) nofun
      | some x =>
          rw [h.on p x hx, Option.some.injEq]
          exact Nat.cast_eq_one

/-- The search from one vertex finds out whether a cycle can be reached from it, and if
    so leaves the walk on the path. -/
theorem searchForCycle_path {i : Nat} (hi : (i : Int) < g.num) {s t : Search}
    (h : searchForCycle g s i = some t) :
    (ReachesCycle (succ g) i ∧ t.deadlock = 1 ∧
        ∀ p ≤ MAX, t.path.cell p = 1 ↔ PassesAt (succ g) i p 1) ∨
      (¬ReachesCycle (succ g) i ∧ (t.deadlock = 1 ↔ s.deadlock = 1)) := by
  -- The vertex is marked and put on the path, at 0.
  have hlt := lt_max hg hi
  simp only [searchForCycle, CArray.read_of_lt g.list hlt, CArray.write_of_lt s.visited hlt,
    Option.bind_eq_bind, Option.bind_some, Option.bind_eq_some_iff] at h
  rcases h with ⟨u, hu, h⟩
  rcases push_some hu with ⟨k, hk, -, rfl⟩
  obtain rfl : k = 0 := by
    change (0 : Int) = k at hk
    omega
  -- It has at most one edge, by the degree of a graph of waiting threads.
  have hsucc := succ_of_lt hi
  have hone := hdeg i hi
  have htarget (n : SourceNode) (hn : n ∈ (g.list.cell i).next) := edgeTarget_eq hg hi hn
  have hfrom (u t : Search) (hu : u.visited.cell i = 1) (n : SourceNode)
    (hn : n ∈ (g.list.cell i).next) := @searchFrom_eq_some g hg i hi u t hu n hn
  generalize (g.list.cell i).next = next at h hsucc hone htarget hfrom
  rcases next with _ | ⟨n, _ | ⟨n', next⟩⟩
  · cases h
    exact .inr ⟨not_reachesCycle_of_nil hsucc, Iff.rfl⟩
  -- The loop over the edges has one round.
  · rw [List.foldlM_cons] at h
    rcases Option.bind_eq_some_iff.mp h with ⟨v, hv, hvt⟩
    cases hvt
    have hmem : n ∈ [n] := List.mem_cons_self
    rcases hfrom _ _ (CArray.cell_set_self ..) n hmem hv with
      ⟨w, hw, hmarked, hwk, hdead, hfirst, hrest⟩
    rcases dfs_trail hg hdeg _ w t _ (htarget n hmem).2 hw with
      ⟨k, xs, f, hk', htrail, hputs, hflag⟩
    obtain rfl : k = 1 := by omega
    rw [hmarked] at htrail
    rw [hdead] at hflag
    cases f with
    -- The trail stops, so the vertex reaches no circle.
    | false =>
        exact .inr ⟨not_reachesCycle_of_edge hsucc htrail.stops,
          hflag.trans (or_iff_left Bool.false_ne_true)⟩
    | true =>
        -- The trail comes back to where it has been, and the path holds its vertices.
        have hround := htrail.round hsucc
        refine .inl ⟨hround.reachesCycle, hflag.mpr (.inr rfl), fun p hp => ?_⟩
        rw [← hround.getElem?_eq_some_iff]
        exact hputs.cell_eq_one_iff (hfirst.trans (CArray.cell_set_self ..)) hrest hp
  · simp only [List.length_cons] at hone
    omega

omit hg hdeg in
/-- Once a deadlock is found, the rest of the loop does nothing. -/
theorem checkLoop_of_deadlock {l : List Nat} {u t : Search} (hu : u.deadlock = 1)
    (h : l.foldlM (fun s i => if s.deadlock = 1 then pure s else searchForCycle g s i) u =
      some t) : t = u := by
  induction l with
  | nil => exact (Option.some.inj h).symm
  | cons i l ih =>
      rw [List.foldlM_cons, if_pos hu] at h
      exact ih h

/-- The loop from a vertex on, if no cycle can be reached from those before it. -/
theorem checkLoop_path (n : Nat) : ∀ (a : Nat) (u t : Search), ((a + n : Nat) : Int) ≤ g.num →
    u.deadlock ≠ 1 → (∀ j < a, ¬ReachesCycle (succ g) j) →
    (List.range' a n).foldlM
      (fun s i => if s.deadlock = 1 then pure s else searchForCycle g s i) u = some t →
    (∃ i, FirstOnto g i ∧ t.deadlock = 1 ∧
      ∀ p ≤ MAX, t.path.cell p = 1 ↔ PassesAt (succ g) i p 1) ∨
    ∀ j < a + n, ¬ReachesCycle (succ g) j := by
  induction n with
  | zero => exact fun a u t _ _ hno _ => .inr hno
  | succ n ih =>
      intro a u t ha hu hno h
      rw [List.range'_succ, List.foldlM_cons, if_neg hu] at h
      rcases Option.bind_eq_some_iff.mp h with ⟨v, hv, h⟩
      -- The first vertex that leads onto a cycle ends the search.
      rcases searchForCycle_path hg hdeg (by omega) hv with ⟨hreach, hdead, hpath⟩ | ⟨hnot, hdead⟩
      · obtain rfl := checkLoop_of_deadlock hdead h
        exact .inl ⟨a, ⟨hreach, hno⟩, hdead, hpath⟩
      · have hno' : ∀ j < a + 1, ¬ReachesCycle (succ g) j := fun j hj => by
          rcases Nat.lt_succ_iff_lt_or_eq.mp hj with hj | rfl
          · exact hno j hj
          · exact hnot
        rw [show a + (n + 1) = a + 1 + n by omega] at ha ⊢
        exact ih (a + 1) v t ha (fun h => hu (hdead.mp h)) hno' h

omit hg hdeg in
/-- A vertex that a cycle can be reached from is one of the graph. -/
theorem lt_of_reachesCycle {c : Nat} (hc : ReachesCycle (succ g) c) : (c : Int) < g.num := by
  rcases hc with ⟨c', hreach, hcycle⟩
  rcases Relation.ReflTransGen.cases_head hreach with rfl | ⟨v, hv, -⟩
  · rcases Relation.TransGen.head'_iff.mp hcycle with ⟨v, hv, -⟩
    exact lt_of_mem_succ hv
  · exact lt_of_mem_succ hv

/-- The check reports the first vertex that a cycle can be reached from. -/
theorem checkDeadLock_path {s t : Search} (h : checkDeadLock g s = some t) {c : Nat}
    (hc : ReachesCycle (succ g) c) :
    ∃ i, FirstOnto g i ∧ t.deadlock = 1 ∧
      ∀ p ≤ MAX, t.path.cell p = 1 ↔ PassesAt (succ g) i p 1 := by
  unfold checkDeadLock at h
  rw [List.range_eq_range'] at h
  have hlt := lt_of_reachesCycle hc
  have hzero : ({ s with deadlock := 0 } : Search).deadlock ≠ 1 := zero_ne_one
  rcases checkLoop_path hg hdeg g.num.toNat 0 _ t (by omega) hzero
    (fun j hj => absurd hj (Nat.not_lt_zero j)) h with hfound | hno
  · exact hfound
  · exact absurd hc (hno c (by omega))

end

end Search

/-! ### Who is signalled -/

/-- The loop signals the slots at the positions where the path has the entry `1`. -/
theorem signals_total (tg : TaskGraph) (s : Search) :
    ∃ tids, signals tg s = some tids ∧ ∀ tid, tid ∈ tids ↔
      ∃ p < MAX, s.path.cell p = 1 ∧ (tg.locks.locklist.cell p).id = tid := by
  -- By induction on the cells that are left, for any list of threads so far.
  have hloop (l : List Nat) : ∀ tids : List Nat, (∀ p ∈ l, p < MAX) →
      ∃ tids', l.foldlM (fun tids (i : Nat) => (s.path.read i).bind (fun idx =>
        if idx = 1 then (tg.locks.locklist.read i).bind (fun node => pure (tids ++ [node.id]))
        else pure tids)) tids = some tids' ∧
      ∀ tid, tid ∈ tids' ↔ tid ∈ tids ∨
        ∃ p ∈ l, s.path.cell p = 1 ∧ (tg.locks.locklist.cell p).id = tid := by
    induction l with
    | nil => exact fun tids _ => ⟨tids, rfl, fun tid => by simp⟩
    | cons p l ih =>
        intro tids hl
        rcases List.forall_mem_cons.mp hl with ⟨hp, hl⟩
        rw [List.foldlM_cons, CArray.read_of_lt s.path (by omega),
          CArray.read_of_lt tg.locks.locklist hp]
        by_cases hone : s.path.cell p = 1
        · rcases ih (tids ++ [(tg.locks.locklist.cell p).id]) hl with ⟨tids', htids, hmem⟩
          refine ⟨tids', ?_, fun tid => ?_⟩
          · simp only [Option.bind_some, if_pos hone]
            exact htids
          · rw [hmem, List.mem_append, List.mem_singleton, or_assoc, List.exists_mem_cons_iff]
            simp only [hone, true_and, eq_comm]
        · rcases ih tids hl with ⟨tids', htids, hmem⟩
          refine ⟨tids', ?_, fun tid => ?_⟩
          · simp only [Option.bind_some, if_neg hone]
            exact htids
          · rw [hmem, List.exists_mem_cons_iff]
            simp only [hone, false_and, false_or]
  rcases hloop _ [] (fun p hp => List.mem_range.mp hp) with ⟨tids, htids, hmem⟩
  refine ⟨tids, htids, fun tid => (hmem tid).trans ?_⟩
  simp only [List.not_mem_nil, false_or, List.mem_range]

/-- Where no vertex has two edges and there is a cycle, the deadlock is reported, and
    the loop signals somebody, and only threads on a cycle, if and only if the walk from
    the first vertex that leads onto a cycle passes the vertex with the number one, and
    wherever it does, the slot at that position is for a thread on a cycle. -/
theorem threadRoutine_breaks_iff (tg : TaskGraph) (hg : Closed tg.vertices)
    (hdeg : OutDegreeLeOne tg.vertices) (hcyclic : Cyclic (succ tg.vertices)) (s : Search) :
    ∃ t tids, threadRoutine tg s = some (t, tids) ∧ t.deadlock = 1 ∧
      ((tids ≠ [] ∧ ∀ tid ∈ tids, OnCycle tg.vertices tid) ↔
        ∃ i, FirstOnto tg.vertices i ∧
          (∃ p < MAX, PassesAt (succ tg.vertices) i p 1) ∧
          ∀ p < MAX, PassesAt (succ tg.vertices) i p 1 →
            OnCycle tg.vertices (tg.locks.locklist.cell p).id) := by
  rcases hcyclic with ⟨c, hc⟩
  rcases Search.checkDeadLock_total hg s with ⟨t, ht⟩
  rcases Search.checkDeadLock_path hg hdeg ht ⟨c, .refl, hc⟩ with ⟨i, hfirst, hdead, hpath⟩
  rcases signals_total tg t with ⟨tids, htids, hslots⟩
  have hmem (tid : Nat) : tid ∈ tids ↔
      ∃ p < MAX, PassesAt (succ tg.vertices) i p 1 ∧ (tg.locks.locklist.cell p).id = tid := by
    rw [hslots]
    refine exists_congr (fun p => and_congr_right (fun hp => ?_))
    rw [hpath p (Nat.le_of_lt hp)]
  refine ⟨t, tids, ?_, hdead, ?_⟩
  · rw [threadRoutine, ht]
    change (if t.deadlock = 1 then _ else _) = _
    rw [if_pos hdead, htids]
    rfl
  · constructor
    · rintro ⟨hne, hall⟩
      rcases List.exists_mem_of_ne_nil tids hne with ⟨tid, htid⟩
      rcases (hmem tid).mp htid with ⟨p, hp, hpass, -⟩
      exact ⟨i, hfirst, ⟨p, hp, hpass⟩,
        fun q hq hpass => hall _ ((hmem _).mpr ⟨q, hq, hpass, rfl⟩)⟩
    · rintro ⟨j, hfirst', ⟨p, hp, hpass⟩, hall⟩
      -- There is only one first vertex.
      obtain rfl : i = j := by
        by_contra hij
        rcases Nat.lt_or_gt_of_ne hij with hlt | hlt
        · exact hfirst'.2 i hlt hfirst.1
        · exact hfirst.2 j hlt hfirst'.1
      refine ⟨List.ne_nil_of_mem ((hmem _).mpr ⟨p, hp, hpass, rfl⟩), fun tid htid => ?_⟩
      rcases (hmem tid).mp htid with ⟨q, hq, hpass, rfl⟩
      exact hall q hq hpass

/-- Four threads with three mutexes. -/
def fourThreads : Setting := ⟨{1, 2, 3, 4}, {1, 2, 3}, by decide, by decide, by decide⟩

/-- The first thread waits for the second one, and the other two for each other. -/
def crossed : TaskGraph :=
  ((System.exec (step fourThreads) start (lock 2 1 ++ lock 3 2 ++ lock 4 3 ++
    [.lockBefore 1 1, .lockBefore 3 3, .lockBefore 4 2])).getD start).tg

theorem crossed_num : crossed.vertices.num = 4 := by decide +kernel

theorem crossed_closed : Closed crossed.vertices := by
  have htarget : ∀ i < 4, ∀ n ∈ (crossed.vertices.list.cell i).next,
      ∃ j < 4, crossed.vertices.searchVertex n = some ((j : Nat) : Int) := by decide +kernel
  refine ⟨by rw [crossed_num]; decide, fun i hi n hn => ?_⟩
  rw [crossed_num] at hi ⊢
  rcases htarget i (by omega) n hn with ⟨j, hj, hsearch⟩
  exact ⟨j, hsearch, by omega⟩

theorem crossed_outDegree : OutDegreeLeOne crossed.vertices := by
  have hone : ∀ i < 4, (crossed.vertices.list.cell i).next.length ≤ 1 := by decide +kernel
  intro i hi
  rw [crossed_num] at hi
  exact hone i (by omega)

theorem crossed_cyclic : Cyclic (succ crossed.vertices) := by
  have hgo : 3 ∈ succ crossed.vertices 2 := by decide +kernel
  have hback : 2 ∈ succ crossed.vertices 3 := by decide +kernel
  exact ⟨2, .tail (.single hgo) hback⟩

theorem threadRoutine_breaks_crossed :
    ∃ t tids, threadRoutine crossed untouched = some (t, tids) ∧ t.deadlock = 1 ∧
      ((tids ≠ [] ∧ ∀ tid ∈ tids, OnCycle crossed.vertices tid) ↔
        ∃ i, FirstOnto crossed.vertices i ∧
          (∃ p < MAX, PassesAt (succ crossed.vertices) i p 1) ∧
          ∀ p < MAX, PassesAt (succ crossed.vertices) i p 1 →
            OnCycle crossed.vertices (crossed.locks.locklist.cell p).id) :=
  threadRoutine_breaks_iff crossed crossed_closed crossed_outDegree crossed_cyclic untouched

/-- Two threads wait for each other, and nobody is signalled. -/
theorem threadRoutine_crossed :
    Closed crossed.vertices ∧ OutDegreeLeOne crossed.vertices ∧ Cyclic (succ crossed.vertices) ∧
      (threadRoutine crossed untouched).map (fun r => (r.1.deadlock, r.2)) = some (1, []) :=
  ⟨crossed_closed, crossed_outDegree, crossed_cyclic, by decide +kernel⟩

end DeadlockDetector

end BlogSample
