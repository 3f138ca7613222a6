import BlogSample.DeadlockDetector.Search
import BlogSample.Theory.DepthFirst

/-!
# Cycles and What the Check Reports

`check_dead_lock` searches from the end of each edge and reports a deadlock as
soon as it comes to a vertex it has marked before. It finds every cycle. But it
never takes a mark back, so it also reports a deadlock where two edges lead to
the same vertex, if the end of some edge comes before both of them.

The graphs here are those that `add_vertex` and `add_edge` build, from nodes of
any type and with parallel edges.

## Main definitions

* `succ`: The vertices that the edges of a vertex lead to.
* `marked`: The marked vertices and the flag.
* `Reports`: A search from the end of an edge raises the flag.
* `Built`: The graphs that the two operations build.
* `Sound`: What is kept while a graph is built.

## Theorems

* `dfs_visits`: `DFS` is the search with a flag.
* `checkDeadLock_flag`: When the check reports a deadlock.
* `Sound.addVertex`, `Sound.addEdge`, `Sound.set`: What the operations keep.
* `Built.sound`, `Sound.closed`: Each edge that is built leads to a vertex.
* `checkDeadLock_decides_iff`: When the report says whether there is a cycle.
-/

namespace BlogSample

namespace DeadlockDetector

open VertexList DepthFirst

/-- The index that `search_vertex` returns for the target of an edge. -/
def edgeTarget (g : VertexList) (n : SourceNode) : Nat :=
  ((g.searchVertex n).getD (-1)).toNat

/-- The vertices that the edges of a vertex lead to. -/
def succ (g : VertexList) (i : Nat) : List Nat :=
  if (i : Int) < g.num then (g.list.cell i).next.map (edgeTarget g) else []

theorem succ_of_lt {g : VertexList} {i : Nat} (hi : (i : Int) < g.num) :
    succ g i = (g.list.cell i).next.map (edgeTarget g) :=
  if_pos hi

theorem lt_of_mem_succ {g : VertexList} {i j : Nat} (hj : j ∈ succ g i) : (i : Int) < g.num := by
  by_contra hi
  unfold succ at hj
  rw [if_neg hi] at hj
  exact absurd hj List.not_mem_nil

namespace Search

/-- The marked vertices, and the flag. -/
def marked (g : VertexList) (s : Search) : Finset Nat × Bool :=
  ((Finset.range g.num.toNat).filter (fun i => s.visited.cell i = 1), decide (s.deadlock = 1))

theorem mem_marked {g : VertexList} {s : Search} {i : Nat} (hi : (i : Int) < g.num) :
    i ∈ (marked g s).1 ↔ s.visited.cell i = 1 := by
  unfold marked
  rw [Finset.mem_filter, Finset.mem_range]
  exact and_iff_right (by omega)

theorem push_eq_some {s t : Search} {idx : Int} (h : s.push idx = some t) :
    ∃ path, t = { s with path := path, k := s.k + 1 } := by
  simp only [push, Option.bind_eq_bind, Option.bind_eq_some_iff] at h
  rcases h with ⟨path, -, h⟩
  exact ⟨path, (Option.some.inj h).symm⟩

theorem printDeadlock_eq_some {g : VertexList} {s t : Search} (h : printDeadlock g s = some t) :
    ∃ output, t = { s with output := output } := by
  simp only [printDeadlock, Option.bind_eq_bind, Option.bind_eq_some_iff] at h
  rcases h with ⟨ids, -, h⟩
  exact ⟨_, (Option.some.inj h).symm⟩

/-- Marking a vertex. -/
theorem marked_set {g : VertexList} {s : Search} {i : Nat} (hi : (i : Int) < g.num)
    (path : CArray Int (MAX + 1)) (k : Int) :
    marked g { s with visited := s.visited.set i 1, path := path, k := k } =
      (insert i (marked g s).1, (marked g s).2) := by
  refine Prod.ext (Finset.ext (fun j => ?_)) rfl
  unfold marked
  simp only [Finset.mem_insert, Finset.mem_filter, Finset.mem_range]
  by_cases hj : j = i
  · subst hj
    rw [CArray.cell_set_self]
    exact iff_of_true ⟨by omega, rfl⟩ (.inl rfl)
  · rw [CArray.cell_set_of_ne _ hj]
    exact (or_iff_right hj).symm

section

variable {g : VertexList} (hg : Closed g)
include hg

theorem edgeTarget_eq {i : Nat} (hi : (i : Int) < g.num) {n : SourceNode}
    (hn : n ∈ (g.list.cell i).next) :
    g.searchVertex n = some (edgeTarget g n : Int) ∧ (edgeTarget g n : Int) < g.num := by
  rcases hg.target i hi n hn with ⟨j, hj, hlt⟩
  have htarget : edgeTarget g n = j := by
    unfold edgeTarget
    rw [hj]
    rfl
  rw [htarget]
  exact ⟨hj, hlt⟩

/-- `DFS` is the search with a flag. -/
theorem dfs_visits (fuel : Nat) : ∀ (s t : Search) (i : Nat), (i : Int) < g.num →
    dfs g fuel s i = some t → Visits (succ g) [i] (marked g s) (marked g t) := by
  induction fuel with
  | zero => exact fun s t i _ h => absurd h nofun
  | succ fuel ih =>
      intro s t i hi h
      by_cases hseen : s.visited.cell i = 1
      · rw [dfs_of_seen hg hi hseen] at h
        rcases Option.bind_eq_some_iff.mp h with ⟨u, hu, h⟩
        rcases Option.bind_eq_some_iff.mp h with ⟨v, hv, h⟩
        rcases push_eq_some hu with ⟨path, rfl⟩
        rcases printDeadlock_eq_some hv with ⟨output, rfl⟩
        cases h
        exact .seen i [] _ _ _ ((mem_marked hi).mpr hseen) (.nil _)
      · rw [dfs_of_new hg hi hseen] at h
        rcases Option.bind_eq_some_iff.mp h with ⟨u, hu, hloop⟩
        rcases push_eq_some hu with ⟨path, rfl⟩
        -- Each edge is a search of its own, one behind the other.
        have hedges (l : List SourceNode) : ∀ u : Search, (∀ n ∈ l, n ∈ (g.list.cell i).next) →
            l.foldlM (fun s n => (g.searchVertex n).bind (fun j =>
              (dfs g fuel s j).bind (fun s => some { s with k := s.k - 1 }))) u = some t →
            Visits (succ g) (l.map (edgeTarget g)) (marked g u) (marked g t) := by
          induction l with
          | nil =>
              intro u _ h
              cases h
              exact .nil _
          | cons n l ihl =>
              intro u hl h
              rcases List.forall_mem_cons.mp hl with ⟨hn, hl⟩
              rcases edgeTarget_eq hg hi hn with ⟨htarget, hlt⟩
              rw [List.foldlM_cons, htarget] at h
              simp only [Option.bind_eq_bind, Option.bind_some, Option.bind_eq_some_iff] at h
              rcases h with ⟨v, ⟨w, hw, hv⟩, h⟩
              cases hv
              exact (ih u w (edgeTarget g n) hlt hw).append (ihl { w with k := w.k - 1 } hl h)
        have hvisits := hedges _ _ (fun n hn => hn) hloop
        rw [marked_set hi, ← succ_of_lt hi] at hvisits
        exact .new i [] _ _ _ _ (fun hmem => hseen ((mem_marked hi).mp hmem)) hvisits (.nil _)

/-- A search from the end of an edge reports something. -/
def Reports (g : VertexList) (i j : Nat) : Prop :=
  Reach (succ g) j i ∨ (∃ a, Reach (succ g) j a ∧ j ∈ succ g a) ∨ Joins (succ g) j

/-- One round of the loop over the edges of a vertex is a search with only that vertex
    marked, and only that vertex on the path. -/
theorem searchFrom_eq_some {i : Nat} (hi : (i : Int) < g.num) {s t : Search}
    (hseen : s.visited.cell i = 1) {n : SourceNode} (hn : n ∈ (g.list.cell i).next)
    (h : searchFrom g i s n = some t) :
    ∃ u, dfs g (MAX + 1) u (edgeTarget g n) = some t ∧
      marked g u = ({i}, decide (s.deadlock = 1)) ∧ u.k = 1 ∧ u.deadlock = s.deadlock ∧
      u.path.cell 0 = s.path.cell 0 ∧ ∀ l, 0 < l → l ≤ MAX → u.path.cell l = -1 := by
  have hnum := hg.num_le
  -- All marks but that of the vertex are cleared, and the path behind it.
  rcases CArray.fill_total 0 ((List.range g.num.toNat).filter (· ≠ i)) s.visited (by
    intro j hj
    have := List.mem_range.mp (List.mem_filter.mp hj).1
    omega) with ⟨visited, hv, hcell⟩
  rcases CArray.fill_total (-1) ((List.range MAX).map (· + 1)) s.path (by
    intro j hj
    rcases List.mem_map.mp hj with ⟨l, hl, rfl⟩
    exact Nat.succ_lt_succ (List.mem_range.mp hl)) with ⟨path, hp, hpath⟩
  rcases edgeTarget_eq hg hi hn with ⟨htarget, hlt⟩
  simp only [searchFrom, hv, hp, htarget, Option.bind_eq_bind, Option.bind_some] at h
  refine ⟨_, h, Prod.ext (Finset.ext (fun j => ?_)) rfl, rfl, rfl, ?_, fun l hl hle => ?_⟩
  · unfold marked
    simp only [Finset.mem_filter, Finset.mem_range, Finset.mem_singleton, hcell, List.mem_filter,
      List.mem_range, decide_eq_true_eq]
    -- Only the vertex itself is marked.
    by_cases hj : j = i
    · subst hj
      rw [if_neg (fun hmem => hmem.2 rfl)]
      exact iff_of_true ⟨by omega, hseen⟩ rfl
    · refine iff_of_false (fun hmem => ?_) hj
      rw [if_pos ⟨hmem.1, hj⟩] at hmem
      exact absurd hmem.2 (by decide)
  · rw [hpath, if_neg]
    intro hmem
    rcases List.mem_map.mp hmem with ⟨l, -, hl⟩
    exact absurd hl (Nat.succ_ne_zero l)
  · rw [hpath, if_pos]
    exact List.mem_map.mpr ⟨l - 1, List.mem_range.mpr (by omega), by omega⟩

/-- Whether one round of the loop over the edges of a vertex raises the flag. -/
theorem searchFrom_flag {i : Nat} (hi : (i : Int) < g.num) {s t : Search}
    (hseen : s.visited.cell i = 1) {n : SourceNode} (hn : n ∈ (g.list.cell i).next)
    (h : searchFrom g i s n = some t) :
    t.visited.cell i = 1 ∧ (t.deadlock = 1 ↔ s.deadlock = 1 ∨ Reports g i (edgeTarget g n)) := by
  rcases searchFrom_eq_some hg hi hseen hn h with ⟨u, hu, hmarked, -⟩
  have hvisits := dfs_visits hg _ _ t _ (edgeTarget_eq hg hi hn).2 hu
  rw [hmarked] at hvisits
  constructor
  -- The start stays marked, for the next edge.
  · rcases hvisits.spec with ⟨new, hnew⟩
    refine (mem_marked hi).mp ?_
    rw [hnew.union]
    exact Finset.mem_union_left _ (Finset.mem_singleton_self i)
  · have hflag := hvisits.flag_iff
    unfold marked at hflag
    simp only [decide_eq_true_eq] at hflag
    exact hflag

/-- The searches from the ends of the edges of a vertex. -/
theorem searchForCycle_flag {i : Nat} (hi : (i : Int) < g.num) {s t : Search}
    (h : searchForCycle g s i = some t) :
    t.deadlock = 1 ↔ s.deadlock = 1 ∨ ∃ j ∈ succ g i, Reports g i j := by
  have hlt := lt_max hg hi
  simp only [searchForCycle, CArray.read_of_lt g.list hlt, CArray.write_of_lt s.visited hlt,
    Option.bind_eq_bind, Option.bind_some, Option.bind_eq_some_iff] at h
  rcases h with ⟨u, hu, h⟩
  rcases push_eq_some hu with ⟨path, rfl⟩
  -- The loop over the edges, by induction on those that are left.
  have hedges (l : List SourceNode) : ∀ u : Search, (∀ n ∈ l, n ∈ (g.list.cell i).next) →
      u.visited.cell i = 1 → l.foldlM (searchFrom g i) u = some t →
      (t.deadlock = 1 ↔ u.deadlock = 1 ∨ ∃ n ∈ l, Reports g i (edgeTarget g n)) := by
    induction l with
    | nil =>
        intro u _ _ h
        cases h
        simp only [List.not_mem_nil, false_and, exists_false, or_false]
    | cons n l ih =>
        intro u hl hseen h
        rcases List.forall_mem_cons.mp hl with ⟨hn, hl⟩
        rw [List.foldlM_cons] at h
        rcases Option.bind_eq_some_iff.mp h with ⟨v, hv, h⟩
        rcases searchFrom_flag hg hi hseen hn hv with ⟨hseen', hflag⟩
        rw [ih v hl hseen' h, hflag, or_assoc]
        simp only [List.mem_cons, exists_eq_or_imp]
  rw [hedges _ _ (fun n hn => hn) (CArray.cell_set_self ..) h, succ_of_lt hi]
  simp only [List.mem_map, exists_exists_and_eq_and]

/-- The check reports a deadlock if one of its searches does. -/
theorem checkDeadLock_flag {s t : Search} (h : checkDeadLock g s = some t) :
    t.deadlock = 1 ↔ ∃ i, ∃ j ∈ succ g i, Reports g i j := by
  have hloop (l : List Nat) : ∀ u : Search, (∀ i ∈ l, (i : Int) < g.num) →
      l.foldlM (fun s i => if s.deadlock = 1 then pure s else searchForCycle g s i) u = some t →
      (t.deadlock = 1 ↔ u.deadlock = 1 ∨ ∃ i ∈ l, ∃ j ∈ succ g i, Reports g i j) := by
    induction l with
    | nil =>
        intro u _ h
        cases h
        simp only [List.not_mem_nil, false_and, exists_false, or_false]
    | cons i l ih =>
        intro u hl h
        rcases List.forall_mem_cons.mp hl with ⟨hi, hl⟩
        rw [List.foldlM_cons] at h
        rcases Option.bind_eq_some_iff.mp h with ⟨v, hv, h⟩
        rw [ih v hl h]
        simp only [List.mem_cons, exists_eq_or_imp]
        -- After a report, the vertices that are left are not searched.
        by_cases hu : u.deadlock = 1
        · rw [if_pos hu] at hv
          cases hv
          exact iff_of_true (.inl hu) (.inl hu)
        · rw [if_neg hu] at hv
          rw [searchForCycle_flag hg hi hv, or_assoc]
  have hrange : ∀ i ∈ List.range g.num.toNat, (i : Int) < g.num := fun i hi => by
    have := List.mem_range.mp hi
    omega
  rw [hloop _ _ hrange h]
  constructor
  · rintro (hzero | ⟨i, -, hreports⟩)
    · have hzero : (0 : Int) = 1 := hzero
      exact absurd hzero (by decide)
    · exact ⟨i, hreports⟩
  · rintro ⟨i, j, hj, hreports⟩
    have hi := lt_of_mem_succ hj
    exact .inr ⟨i, List.mem_range.mpr (by omega), j, hj, hreports⟩

end

end Search

/-! ### Graphs that are built -/

/-- The graphs that `add_vertex` and `add_edge` build. -/
inductive Built : VertexList → Prop
  | new (list : CArray Vertex MAX) : Built ⟨list, 0⟩
  | addVertex (g g' : VertexList) (n : SourceNode) :
      Built g → g.addVertex n = some g' → Built g'
  | addEdge (g g' : VertexList) (src dst : SourceNode) :
      Built g → g.addEdge src dst = some g' → Built g'

/-- The graph has a vertex for the node. -/
def HasNode (g : VertexList) (n : SourceNode) : Prop :=
  ∃ i : Nat, (i : Int) < g.num ∧ (g.list.cell i).node = n

/-- What is kept while a graph is built. -/
structure Sound (g : VertexList) : Prop where
  num_nonneg : 0 ≤ g.num
  num_le : g.num ≤ MAX
  distinct : ∀ i j : Nat, (i : Int) < g.num → (j : Int) < g.num →
    (g.list.cell i).node = (g.list.cell j).node → i = j
  target : ∀ i : Nat, (i : Int) < g.num → ∀ n ∈ (g.list.cell i).next, HasNode g n

/-- A node that has a vertex is found. -/
theorem searchVertex_of_hasNode {g : VertexList} (hnum : g.num ≤ MAX) {n : SourceNode}
    (hn : HasNode g n) :
    ∃ j : Nat, g.searchVertex n = some (j : Int) ∧ (j : Int) < g.num ∧
      (g.list.cell j).node = n := by
  rcases CArray.scan_total g.list (fun v => v.node.type == n.type && v.node.id == n.id) hnum with
    ⟨r, hr⟩
  rcases searchVertex_some hr with ⟨j, rfl, hj, hnode⟩ | ⟨-, hno⟩
  · exact ⟨j, hr, hj, hnode⟩
  · exact absurd hn hno

theorem Sound.closed {g : VertexList} (hg : Sound g) : Closed g := by
  refine ⟨hg.num_le, fun i hi n hn => ?_⟩
  rcases searchVertex_of_hasNode hg.num_le (hg.target i hi n hn) with ⟨j, hj, hlt, -⟩
  exact ⟨j, hj, hlt⟩

/-- A node that has no vertex gets one behind the others. -/
theorem Sound.addVertex {g g' : VertexList} (hg : Sound g) {n : SourceNode}
    (h : g.addVertex n = some g') :
    Sound g' ∧ HasNode g' n ∧ ∀ m, HasNode g m → HasNode g' m := by
  rcases addVertex_some h with ⟨hn, rfl⟩ | ⟨hno, k, hk, hlt, rfl⟩
  · exact ⟨hg, hn, fun m hm => hm⟩
  -- Only the cell behind the last vertex changes, and it becomes one.
  · have hkeep (m : SourceNode) (hm : HasNode g m) :
        HasNode ⟨g.list.set k ⟨n, []⟩, g.num + 1⟩ m := by
      rcases hm with ⟨i, hi, hnode⟩
      refine ⟨i, Int.lt_add_one_of_le (Int.le_of_lt hi), ?_⟩
      exact (congrArg Vertex.node (cell_old hk ⟨n, []⟩ hi)).trans hnode
    have hnonneg := hg.num_nonneg
    refine ⟨⟨?_, ?_, fun i j hi hj hij => ?_, fun i hi m hm => ?_⟩, ⟨k, ?_, ?_⟩, hkeep⟩
    · change 0 ≤ g.num + 1
      omega
    · change g.num + 1 ≤ (MAX : Int)
      omega
    -- The new node has no vertex yet, so it differs from the others.
    · change ((g.list.set k ⟨n, []⟩).cell i).node = ((g.list.set k ⟨n, []⟩).cell j).node at hij
      rcases cell_new hk ⟨n, []⟩ hi with ⟨hik, hci⟩ | ⟨hi', hci⟩
      · rcases cell_new hk ⟨n, []⟩ hj with ⟨hjk, -⟩ | ⟨hj', hcj⟩
        · rw [hik, hjk]
        · rw [hci, hcj] at hij
          exact absurd ⟨j, hj', hij.symm⟩ hno
      · rcases cell_new hk ⟨n, []⟩ hj with ⟨-, hcj⟩ | ⟨hj', hcj⟩
        · rw [hci, hcj] at hij
          exact absurd ⟨i, hi', hij⟩ hno
        · rw [hci, hcj] at hij
          exact hg.distinct i j hi' hj' hij
    · change m ∈ ((g.list.set k ⟨n, []⟩).cell i).next at hm
      rcases cell_new hk ⟨n, []⟩ hi with ⟨-, hcell⟩ | ⟨hi', hcell⟩
      · rw [hcell] at hm
        exact absurd hm List.not_mem_nil
      · rw [hcell] at hm
        exact hkeep m (hg.target i hi' m hm)
    · change (k : Int) < g.num + 1
      omega
    · rw [CArray.cell_set_self]

/-- The list of one vertex may become another one, of nodes that have a vertex. -/
theorem Sound.set {g : VertexList} (hg : Sound g) {next : List SourceNode}
    (hnext : ∀ n ∈ next, HasNode g n) (i : Nat) :
    Sound ⟨g.list.set i ⟨(g.list.cell i).node, next⟩, g.num⟩ := by
  have hnodes (j : Nat) : ((g.list.set i ⟨(g.list.cell i).node, next⟩).cell j).node =
      (g.list.cell j).node := node_set _ j
  have hhas (m : SourceNode) (hm : HasNode g m) :
      HasNode ⟨g.list.set i ⟨(g.list.cell i).node, next⟩, g.num⟩ m := by
    rcases hm with ⟨j, hj, hnode⟩
    exact ⟨j, hj, (hnodes j).trans hnode⟩
  refine ⟨hg.num_nonneg, hg.num_le, fun j k hj hk hjk => ?_, fun j hj m hm => hhas m ?_⟩
  · exact hg.distinct j k hj hk ((hnodes j).symm.trans (hjk.trans (hnodes k)))
  · change m ∈ ((g.list.set i ⟨(g.list.cell i).node, next⟩).cell j).next at hm
    by_cases hji : j = i
    · rw [hji, CArray.cell_set_self] at hm
      exact hnext m hm
    · rw [CArray.cell_set_of_ne _ hji] at hm
      exact hg.target j hj m hm

/-- An edge is added between two vertices that are there by then. -/
theorem Sound.addEdge {g g' : VertexList} (hg : Sound g) {src dst : SourceNode}
    (h : g.addEdge src dst = some g') : Sound g' := by
  simp only [VertexList.addEdge, Option.bind_eq_bind, Option.bind_eq_some_iff] at h
  rcases h with ⟨g₁, h₁, g₂, h₂, r, hr, v, hv, list, hlist, h⟩
  rcases hg.addVertex h₁ with ⟨hg₁, hsrc, -⟩
  rcases hg₁.addVertex h₂ with ⟨hg₂, hdst, hkeep⟩
  rcases searchVertex_some hr with ⟨i, rfl, hi, hnode⟩ | ⟨-, hno⟩
  · rcases CArray.read_eq_some hv with ⟨i', hi', -, rfl⟩
    rcases CArray.write_eq_some hlist with ⟨i'', hi'', -, rfl⟩
    obtain rfl : i = i' := by omega
    obtain rfl : i = i'' := by omega
    cases h
    refine hg₂.set (fun n hn => ?_) i
    -- The list gets longer by the target.
    rcases List.mem_append.mp hn with hn | hn
    · exact hg₂.target i hi n hn
    · rw [List.mem_singleton.mp hn]
      exact hdst
  · exact absurd (hkeep src hsrc) hno

theorem Built.sound {g : VertexList} (hg : Built g) : Sound g := by
  induction hg with
  | new list =>
      exact ⟨Int.le_refl 0, Int.natCast_nonneg MAX,
        fun i j hi => absurd hi (Int.not_lt.mpr (Int.natCast_nonneg i)),
        fun i hi => absurd hi (Int.not_lt.mpr (Int.natCast_nonneg i))⟩
  | addVertex g g' n _ h ih => exact (ih.addVertex h).1
  | addEdge g g' src dst _ h ih => exact ih.addEdge h

/-- The report says whether there is a cycle if there is one, or if no two edges that
    can be reached from the end of an edge lead to the same vertex. Otherwise it does
    not. -/
theorem checkDeadLock_decides_iff {g : VertexList} (hg : Built g) (s : Search) :
    ∃ t, Search.checkDeadLock g s = some t ∧
      ((t.deadlock = 1 ↔ Cyclic (succ g)) ↔
        Cyclic (succ g) ∨ ∀ i, ∀ j ∈ succ g i, ¬Joins (succ g) j) := by
  have hclosed := hg.sound.closed
  rcases Search.checkDeadLock_total hclosed s with ⟨t, ht⟩
  refine ⟨t, ht, ?_⟩
  have hflag := Search.checkDeadLock_flag hclosed ht
  unfold Search.Reports at hflag
  rw [hflag, exists_flag_iff]
  constructor
  · intro hiff
    by_cases hcyclic : Cyclic (succ g)
    · exact .inl hcyclic
    · exact .inr (fun i j hj hjoins => hcyclic (hiff.mp (.inr ⟨i, j, hj, hjoins⟩)))
  · rintro (hcyclic | hno)
    · exact iff_of_true (.inl hcyclic) hcyclic
    · refine or_iff_left ?_
      rintro ⟨i, j, hj, hjoins⟩
      exact hno i j hj hjoins

/-- The graph of a list of edges between threads. -/
def ofEdges (edges : List (Nat × Nat)) : Option VertexList :=
  edges.foldlM (fun g e => g.addEdge (process e.1) (process e.2)) ⟨⟨fun _ => ⟨process 0, []⟩⟩, 0⟩

theorem built_ofEdges {edges : List (Nat × Nat)} {g : VertexList} (h : ofEdges edges = some g) :
    Built g := by
  have hfold (l : List (Nat × Nat)) : ∀ g₀ : VertexList, Built g₀ →
      l.foldlM (fun g e => g.addEdge (process e.1) (process e.2)) g₀ = some g → Built g := by
    induction l with
    | nil =>
        intro g₀ hg₀ h
        cases h
        exact hg₀
    | cons e l ih =>
        intro g₀ hg₀ h
        rw [List.foldlM_cons] at h
        rcases Option.bind_eq_some_iff.mp h with ⟨g₁, hg₁, h⟩
        exact ih g₁ (hg₀.addEdge _ _ _ _ hg₁) h
  exact hfold edges _ (.new _) h

/-- The globals before the first check. -/
def untouched : Search :=
  ⟨⟨fun _ => 0⟩, ⟨fun _ => 0⟩, 0, 0, []⟩

/-- Two ways that meet again, behind another edge. -/
def diamond : VertexList :=
  (ofEdges [(1, 2), (2, 3), (2, 4), (3, 5), (4, 5)]).getD ⟨⟨fun _ => ⟨process 0, []⟩⟩, 0⟩

theorem diamond_eq : ofEdges [(1, 2), (2, 3), (2, 4), (3, 5), (4, 5)] = some diamond := by
  rfl

theorem checkDeadLock_decides_diamond :
    ∃ t, Search.checkDeadLock diamond untouched = some t ∧
      ((t.deadlock = 1 ↔ Cyclic (succ diamond)) ↔
        Cyclic (succ diamond) ∨ ∀ i, ∀ j ∈ succ diamond i, ¬Joins (succ diamond) j) :=
  checkDeadLock_decides_iff (built_ofEdges diamond_eq) untouched

/-- The check reports a deadlock in a graph without a cycle. -/
theorem checkDeadLock_diamond :
    Built diamond ∧ (Search.checkDeadLock diamond untouched).map Search.deadlock = some 1 ∧
      ¬Cyclic (succ diamond) := by
  refine ⟨built_ofEdges diamond_eq, by decide +kernel, ?_⟩
  rintro ⟨i, hi⟩
  -- Every edge leads to a later vertex.
  have hlater : ∀ i < 5, ∀ j ∈ succ diamond i, i < j := by decide +kernel
  have hnum : diamond.num = 5 := by decide +kernel
  have hlt {j k : Nat} (h : Relation.TransGen (fun a b => b ∈ succ diamond a) j k) : j < k := by
    have hedge {a b : Nat} (hb : b ∈ succ diamond a) : a < b := by
      have ha := lt_of_mem_succ hb
      exact hlater a (by omega) b hb
    induction h with
    | single hb => exact hedge hb
    | tail _ hb ih => exact Nat.lt_trans ih (hedge hb)
  exact Nat.lt_irrefl i (hlt hi)

end DeadlockDetector

end BlogSample
