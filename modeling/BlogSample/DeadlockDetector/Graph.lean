import BlogSample.Theory.CArray

/-!
# The Graph of the Deadlock Detector

The vertex list of `task_graph` and the operations on it. A vertex is the head
of a chain of nodes, the targets of its edges, and only the vertices below
`num` are looked at: decrementing `num` hides a vertex together with its
edges, and the next vertex that is added overwrites it.

Each operation is given by what it does to the vertices and to the edges, for
a graph that is well formed: every node is a thread, the vertices below `num`
are distinct, and so are the targets of each of them. `none` stands for an
access outside the list, after which the program has no defined state.

## Main definitions

* `SourceNode`, `Vertex`, `VertexList`: The data.
* `searchVertex`, `addVertex`, `addEdge`, `verifyEdge`, `removeEdge`: The
  operations of the source.
* `HasVertex`, `Edge`: What the graph holds.
* `Wf`: The graphs the operations keep to.

## Theorems

* `searchVertex_eq_some`: What a search that ended has found.
* `cell_new`, `hasVertex_new`: A vertex that is written behind the others.
* `edge_addVertex`, `edge_addEdge`, `edge_removeEdge`: The edges afterwards.
* `hasVertex_addVertex`, `hasVertex_addEdge`, `hasVertex_removeEdge`: The
  vertices afterwards.
* `verifyEdge_eq_some`: What the test for an edge answers.
* `edge_hide`: Decrementing `num` past a vertex without edges.
-/

namespace BlogSample

namespace DeadlockDetector

/-- `#define MAX 64`. -/
def MAX : Nat := 64

/-- `enum Type`. -/
inductive NodeType where
  | process
  | resource
  deriving DecidableEq

/-- The fields of `struct source_node` that are set and read in a vertex. -/
structure SourceNode where
  id : Nat
  type : NodeType
  deriving DecidableEq

/-- The node of a thread. -/
def process (id : Nat) : SourceNode := ⟨id, .process⟩

/-- `struct vertex`, with the nodes of the chain it heads. -/
structure Vertex where
  node : SourceNode
  next : List SourceNode

/-- `list` and `num` of `struct task_graph`. -/
structure VertexList where
  list : CArray Vertex MAX
  num : Int

namespace VertexList

/-- `search_vertex(node)`. -/
def searchVertex (g : VertexList) (node : SourceNode) : Option Int :=
  g.list.scan (fun v => v.node.type == node.type && v.node.id == node.id) g.num

/-- `add_vertex(type)`. -/
def addVertex (g : VertexList) (type : SourceNode) : Option VertexList := do
  let idx ← g.searchVertex type
  if idx = -1 then do
    let list ← g.list.write g.num ⟨type, []⟩
    pure ⟨list, g.num + 1⟩
  else pure g

/-- `add_edge(from, to)`. -/
def addEdge (g : VertexList) (src dst : SourceNode) : Option VertexList := do
  let g ← g.addVertex src
  let g ← g.addVertex dst
  let idx ← g.searchVertex src
  let v ← g.list.read idx
  let list ← g.list.write idx ⟨v.node, v.next ++ [dst]⟩
  pure ⟨list, g.num⟩

/-- `verify_edge(i, j)`. The walk starts at the vertex itself, and only the
    identities are compared. -/
def verifyEdge (g : VertexList) (i j : SourceNode) : Option Bool :=
  if g.num = 0 then pure false
  else do
    let idx ← g.searchVertex i
    if idx = -1 then pure false
    else do
      let v ← g.list.read idx
      pure ((v.node :: v.next).any (fun n => n.id == j.id))

/-- `remove_edge(from, to)`. -/
def removeEdge (g : VertexList) (src dst : SourceNode) : Option VertexList := do
  let idxi ← g.searchVertex src
  let idxj ← g.searchVertex dst
  if idxi ≠ -1 ∧ idxj ≠ -1 then do
    let v ← g.list.read idxi
    let list ← g.list.write idxi ⟨v.node, v.next.eraseP (fun n => n.id == dst.id)⟩
    pure ⟨list, g.num⟩
  else pure g

/-- The graph has a vertex for the thread. -/
def HasVertex (g : VertexList) (x : Nat) : Prop :=
  ∃ i : Nat, (i : Int) < g.num ∧ (g.list.cell i).node.id = x

/-- The graph stores an edge. -/
def Edge (g : VertexList) (a b : Nat) : Prop :=
  ∃ i : Nat, (i : Int) < g.num ∧ (g.list.cell i).node.id = a ∧
    ∃ n ∈ (g.list.cell i).next, n.id = b

theorem Edge.hasVertex {g : VertexList} {a b : Nat} (h : g.Edge a b) : g.HasVertex a := by
  rcases h with ⟨i, hi, ha, -⟩
  exact ⟨i, hi, ha⟩

/-! The vertices below `num` are all that has to be looked at. -/

instance (g : VertexList) (x : Nat) : Decidable (g.HasVertex x) :=
  decidable_of_iff (∃ i < g.num.toNat, (g.list.cell i).node.id = x)
    (exists_congr fun _ => and_congr_left' (by omega))

instance (g : VertexList) (P : Nat → Prop) [DecidablePred P] :
    Decidable (∀ i : Nat, (i : Int) + 1 = g.num → P i) :=
  decidable_of_iff (∀ i < g.num.toNat, (i : Int) + 1 = g.num → P i)
    (forall_congr' fun _ => ⟨fun h hi => h (by omega) hi, fun h _ => h⟩)

instance (g : VertexList) (a : Nat) (P : Nat → Prop) [DecidablePred P] :
    Decidable (∀ b, g.Edge a b → P b) :=
  decidable_of_iff (∀ i < g.num.toNat, (g.list.cell i).node.id = a →
      ∀ n ∈ (g.list.cell i).next, P n.id) (by
    constructor
    · rintro h b ⟨i, hi, ha, n, hn, rfl⟩
      exact h i (by omega) ha n hn
    · exact fun h i hi ha n hn => h n.id ⟨i, by omega, ha, n, hn, rfl⟩)

instance (g : VertexList) (b : Nat) (P : Nat → Prop) [DecidablePred P] :
    Decidable (∀ a, g.Edge a b → P a) :=
  decidable_of_iff (∀ i < g.num.toNat, (∃ n ∈ (g.list.cell i).next, n.id = b) →
      P (g.list.cell i).node.id) (by
    constructor
    · rintro h a ⟨i, hi, rfl, hb⟩
      exact h i (by omega) hb
    · exact fun h i hi hb => h _ ⟨i, by omega, rfl, hb⟩)

/-- Every node is a thread, no thread has two vertices, and no vertex has
    two edges to the same thread. -/
structure Wf (g : VertexList) : Prop where
  num_le : g.num ≤ MAX
  type : ∀ i : Nat, (i : Int) < g.num → (g.list.cell i).node.type = .process
  next : ∀ i : Nat, (i : Int) < g.num → ∀ n ∈ (g.list.cell i).next, n.type = .process
  distinct : ∀ i j : Nat, (i : Int) < g.num → (j : Int) < g.num →
    (g.list.cell i).node.id = (g.list.cell j).node.id → i = j
  nodup : ∀ i : Nat, (i : Int) < g.num → ((g.list.cell i).next.map SourceNode.id).Nodup

/-! ### Any node -/

theorem sameNode_iff (n m : SourceNode) :
    (n.type == m.type && n.id == m.id) = true ↔ n = m := by
  rw [Bool.and_eq_true, beq_iff_eq, beq_iff_eq]
  constructor
  · intro h
    cases n
    cases m
    rw [SourceNode.mk.injEq]
    exact ⟨h.2, h.1⟩
  · rintro rfl
    exact ⟨rfl, rfl⟩

/-- What a search for a node has found. -/
theorem searchVertex_some {g : VertexList} {n : SourceNode} {r : Int}
    (h : g.searchVertex n = some r) :
    (∃ i : Nat, r = i ∧ (i : Int) < g.num ∧ (g.list.cell i).node = n) ∨
      (r = -1 ∧ ¬∃ i : Nat, (i : Int) < g.num ∧ (g.list.cell i).node = n) := by
  rcases CArray.scan_eq_some h with ⟨i, hr, hi, hp, -⟩ | ⟨hr, hall⟩
  · exact Or.inl ⟨i, hr, hi, (sameNode_iff _ _).mp hp⟩
  · refine Or.inr ⟨hr, ?_⟩
    rintro ⟨i, hi, rfl⟩
    have hself := hall i hi
    rw [(sameNode_iff _ _).mpr rfl] at hself
    cases hself

/-- A node that has no vertex gets one behind the others. -/
theorem addVertex_some {g g' : VertexList} {n : SourceNode} (h : g.addVertex n = some g') :
    ((∃ i : Nat, (i : Int) < g.num ∧ (g.list.cell i).node = n) ∧ g' = g) ∨
      ((¬∃ i : Nat, (i : Int) < g.num ∧ (g.list.cell i).node = n) ∧
        ∃ k : Nat, g.num = k ∧ k < MAX ∧ g' = ⟨g.list.set k ⟨n, []⟩, g.num + 1⟩) := by
  simp only [addVertex, Option.bind_eq_bind, Option.bind_eq_some_iff] at h
  rcases h with ⟨r, hr, h⟩
  rcases searchVertex_some hr with ⟨i, rfl, hi, hnode⟩ | ⟨rfl, hno⟩
  · rw [if_neg (by omega)] at h
    exact Or.inl ⟨⟨i, hi, hnode⟩, (Option.some.inj h).symm⟩
  · rw [if_pos rfl, Option.bind_eq_some_iff] at h
    rcases h with ⟨list, hlist, h⟩
    rcases CArray.write_eq_some hlist with ⟨k, hk, hlt, rfl⟩
    exact Or.inr ⟨hno, k, hk, hlt, (Option.some.inj h).symm⟩

/-- Behind the others a vertex is written: each one is that one or an old one. -/
theorem cell_new {g : VertexList} {k : Nat} (hk : g.num = k) (v : Vertex) {i : Nat}
    (hi : (i : Int) < g.num + 1) :
    (i = k ∧ (g.list.set k v).cell i = v) ∨
      ((i : Int) < g.num ∧ (g.list.set k v).cell i = g.list.cell i) := by
  by_cases hik : i = k
  · rw [hik]
    exact Or.inl ⟨rfl, CArray.cell_set_self ..⟩
  · exact Or.inr ⟨by omega, CArray.cell_set_of_ne _ hik v⟩

/-- An old vertex stays what it is. -/
theorem cell_old {g : VertexList} {k : Nat} (hk : g.num = k) (v : Vertex) {i : Nat}
    (hi : (i : Int) < g.num) : (g.list.set k v).cell i = g.list.cell i :=
  CArray.cell_set_of_ne _ (by omega) v

theorem hasVertex_new {g : VertexList} {k : Nat} (hk : g.num = k) (v : Vertex) (y : Nat) :
    (VertexList.mk (g.list.set k v) (g.num + 1)).HasVertex y ↔
      g.HasVertex y ∨ y = v.node.id := by
  constructor
  · rintro ⟨i, hi, rfl⟩
    rcases cell_new hk v hi with ⟨-, hcell⟩ | ⟨hi, hcell⟩
    · exact Or.inr (congrArg (fun v => v.node.id) hcell)
    · exact Or.inl ⟨i, hi, (congrArg (fun v => v.node.id) hcell).symm⟩
  · rintro (⟨i, hi, rfl⟩ | rfl)
    · refine ⟨i, Int.lt_add_one_of_le (Int.le_of_lt hi), ?_⟩
      exact congrArg (fun v => v.node.id) (cell_old hk v hi)
    · refine ⟨k, ?_, ?_⟩
      · change (k : Int) < g.num + 1
        omega
      · rw [CArray.cell_set_self]

/-! ### Threads -/

section Operations

variable {g : VertexList} (hg : g.Wf)
include hg

/-- A thread has a vertex if its node has. -/
theorem hasVertex_iff (x : Nat) :
    g.HasVertex x ↔ ∃ i : Nat, (i : Int) < g.num ∧ (g.list.cell i).node = process x := by
  refine exists_congr (fun i => and_congr_right (fun hi => ?_))
  constructor
  · rintro rfl
    rw [process, ← hg.type i hi]
  · exact congrArg SourceNode.id

/-- What a search for a thread has found. -/
theorem searchVertex_eq_some {x : Nat} {r : Int} (h : g.searchVertex (process x) = some r) :
    (∃ i : Nat, r = i ∧ (i : Int) < g.num ∧ (g.list.cell i).node.id = x) ∨
      (r = -1 ∧ ¬ g.HasVertex x) := by
  rw [hasVertex_iff hg]
  rcases searchVertex_some h with ⟨i, hr, hi, hnode⟩ | hno
  · exact Or.inl ⟨i, hr, hi, congrArg SourceNode.id hnode⟩
  · exact Or.inr hno

theorem searchVertex_total (x : SourceNode) : ∃ r, g.searchVertex x = some r :=
  CArray.scan_total _ _ hg.num_le

/-- A vertex that is there is found where it is. -/
theorem searchVertex_of_lt {i : Nat} (hi : (i : Int) < g.num) :
    g.searchVertex (process (g.list.cell i).node.id) = some (i : Int) := by
  rcases searchVertex_total hg (process (g.list.cell i).node.id) with ⟨r, hr⟩
  rcases searchVertex_eq_some hg hr with ⟨j, rfl, hj, hid⟩ | ⟨-, hno⟩
  · rw [hr, hg.distinct j i hj hi hid]
  · exact absurd ⟨i, hi, rfl⟩ hno

/-! ### Adding a vertex -/

/-- A thread that has no vertex gets one behind the others. -/
theorem addVertex_eq_some {x : Nat} {g' : VertexList} (h : g.addVertex (process x) = some g') :
    (g.HasVertex x ∧ g' = g) ∨
      (¬ g.HasVertex x ∧ ∃ k : Nat, g.num = k ∧ k < MAX ∧
        g' = ⟨g.list.set k ⟨process x, []⟩, g.num + 1⟩) := by
  rw [hasVertex_iff hg]
  exact addVertex_some h

theorem wf_addVertex {x : Nat} {g' : VertexList} (h : g.addVertex (process x) = some g') :
    g'.Wf := by
  rcases addVertex_eq_some hg h with ⟨-, rfl⟩ | ⟨hno, k, hk, hlt, rfl⟩
  · exact hg
  -- Only the cell behind the last vertex changes, and it becomes one.
  · refine ⟨?_, fun i hi => ?_, fun i hi n hn => ?_, fun i j hi hj hid => ?_, fun i hi => ?_⟩
    · change g.num + 1 ≤ (MAX : Int)
      omega
    · rcases cell_new hk ⟨process x, []⟩ hi with ⟨-, hcell⟩ | ⟨hi, hcell⟩
      · exact congrArg (fun v => v.node.type) hcell
      · exact (congrArg (fun v => v.node.type) hcell).trans (hg.type i hi)
    · change n ∈ ((g.list.set k ⟨process x, []⟩).cell i).next at hn
      rcases cell_new hk ⟨process x, []⟩ hi with ⟨-, hcell⟩ | ⟨hi, hcell⟩
      · rw [hcell] at hn
        exact absurd hn List.not_mem_nil
      · rw [hcell] at hn
        exact hg.next i hi n hn
    -- The new vertex is of a thread that had none.
    · change ((g.list.set k ⟨process x, []⟩).cell i).node.id =
        ((g.list.set k ⟨process x, []⟩).cell j).node.id at hid
      rcases cell_new hk ⟨process x, []⟩ hi with ⟨hik, hci⟩ | ⟨hi', hci⟩
      · rcases cell_new hk ⟨process x, []⟩ hj with ⟨hjk, -⟩ | ⟨hj', hcj⟩
        · rw [hik, hjk]
        · rw [hci, hcj] at hid
          exact absurd ⟨j, hj', hid.symm⟩ hno
      · rcases cell_new hk ⟨process x, []⟩ hj with ⟨-, hcj⟩ | ⟨hj', hcj⟩
        · rw [hci, hcj] at hid
          exact absurd ⟨i, hi', hid⟩ hno
        · rw [hci, hcj] at hid
          exact hg.distinct i j hi' hj' hid
    · change (((g.list.set k ⟨process x, []⟩).cell i).next.map SourceNode.id).Nodup
      rcases cell_new hk ⟨process x, []⟩ hi with ⟨-, hcell⟩ | ⟨hi, hcell⟩
      · rw [hcell]
        exact List.nodup_nil
      · rw [hcell]
        exact hg.nodup i hi

theorem hasVertex_addVertex {x : Nat} {g' : VertexList} (h : g.addVertex (process x) = some g')
    (y : Nat) : g'.HasVertex y ↔ g.HasVertex y ∨ y = x := by
  rcases addVertex_eq_some hg h with ⟨hx, rfl⟩ | ⟨-, k, hk, -, rfl⟩
  · refine ⟨Or.inl, ?_⟩
    rintro (hy | rfl)
    · exact hy
    · exact hx
  · exact hasVertex_new hk ⟨process x, []⟩ y

/-- A new vertex has no edges, and the others keep theirs. -/
theorem edge_addVertex {x : Nat} {g' : VertexList} (h : g.addVertex (process x) = some g')
    (a b : Nat) : g'.Edge a b ↔ g.Edge a b := by
  rcases addVertex_eq_some hg h with ⟨-, rfl⟩ | ⟨-, k, hk, -, rfl⟩
  · exact Iff.rfl
  · constructor
    · rintro ⟨i, hi, ha, n, hn, hb⟩
      change ((g.list.set k ⟨process x, []⟩).cell i).node.id = a at ha
      change n ∈ ((g.list.set k ⟨process x, []⟩).cell i).next at hn
      rcases cell_new hk ⟨process x, []⟩ hi with ⟨-, hcell⟩ | ⟨hi, hcell⟩
      · rw [hcell] at hn
        exact absurd hn List.not_mem_nil
      · rw [hcell] at ha hn
        exact ⟨i, hi, ha, n, hn, hb⟩
    · rintro ⟨i, hi, ha, n, hn, hb⟩
      -- An edge of before starts below the new vertex.
      have hcell := cell_old hk ⟨process x, []⟩ hi
      rw [← hcell] at ha hn
      exact ⟨i, Int.lt_add_one_of_le (Int.le_of_lt hi), ha, n, hn, hb⟩

/-! ### Adding an edge -/

/-- An edge is appended to the chain of a vertex that is there by then. -/
theorem addEdge_eq_some {a b : Nat} {g' : VertexList}
    (h : g.addEdge (process a) (process b) = some g') :
    ∃ g₁ g₂ : VertexList, ∃ i : Nat, g.addVertex (process a) = some g₁ ∧
      g₁.addVertex (process b) = some g₂ ∧ (i : Int) < g₂.num ∧
      (g₂.list.cell i).node.id = a ∧
      g' = ⟨g₂.list.set i ⟨(g₂.list.cell i).node, (g₂.list.cell i).next ++ [process b]⟩,
        g₂.num⟩ := by
  simp only [addEdge, Option.bind_eq_bind, Option.bind_eq_some_iff] at h
  rcases h with ⟨g₁, h₁, g₂, h₂, r, hr, v, hv, list, hlist, h⟩
  -- By the time the chain is read both threads have a vertex.
  have hg₁ := wf_addVertex hg h₁
  have hg₂ := wf_addVertex hg₁ h₂
  rcases searchVertex_eq_some hg₂ hr with ⟨i, rfl, hi, hid⟩ | ⟨rfl, -⟩
  · rcases CArray.read_eq_some hv with ⟨i', hi', -, rfl⟩
    rcases CArray.write_eq_some hlist with ⟨i'', hi'', -, rfl⟩
    obtain rfl : i = i' := by omega
    obtain rfl : i = i'' := by omega
    exact ⟨g₁, g₂, i, h₁, h₂, hi, hid, (Option.some.inj h).symm⟩
  · rcases CArray.read_eq_some hv with ⟨i', hi', -⟩
    omega

omit hg in
/-- Changing the chain of one vertex. -/
theorem edge_set {i : Nat} (hi : (i : Int) < g.num)
    (hg : g.Wf) (next : List SourceNode) (a b : Nat) :
    (VertexList.mk (g.list.set i ⟨(g.list.cell i).node, next⟩) g.num).Edge a b ↔
      ((a ≠ (g.list.cell i).node.id ∧ g.Edge a b) ∨
        (a = (g.list.cell i).node.id ∧ ∃ n ∈ next, n.id = b)) := by
  constructor
  · rintro ⟨j, hj, ha, n, hn, hb⟩
    by_cases hji : j = i
    · subst hji
      rw [CArray.cell_set_self] at ha hn
      exact Or.inr ⟨ha.symm, n, hn, hb⟩
    · rw [CArray.cell_set_of_ne _ hji] at ha hn
      refine Or.inl ⟨?_, j, hj, ha, n, hn, hb⟩
      -- Another vertex has another thread.
      rintro rfl
      exact hji (hg.distinct j i hj hi ha)
  · rintro (⟨hne, j, hj, ha, n, hn, hb⟩ | ⟨rfl, n, hn, hb⟩)
    · have hji : j ≠ i := by
        rintro rfl
        exact hne ha.symm
      refine ⟨j, hj, ?_, n, ?_, hb⟩
      all_goals rw [CArray.cell_set_of_ne _ hji]; assumption
    · refine ⟨i, hi, ?_, n, ?_, hb⟩
      all_goals rw [CArray.cell_set_self]
      exact hn

omit hg in
/-- The threads of the vertices stay what they are. -/
theorem node_set {i : Nat} (next : List SourceNode) (j : Nat) :
    ((g.list.set i ⟨(g.list.cell i).node, next⟩).cell j).node = (g.list.cell j).node := by
  by_cases hji : j = i
  · rw [hji, CArray.cell_set_self]
  · rw [CArray.cell_set_of_ne _ hji]

omit hg in
theorem hasVertex_set {i : Nat} (next : List SourceNode) (x : Nat) :
    (VertexList.mk (g.list.set i ⟨(g.list.cell i).node, next⟩) g.num).HasVertex x ↔
      g.HasVertex x := by
  simp only [HasVertex, node_set]

theorem wf_set {i : Nat} {next : List SourceNode} (hnext : (next.map SourceNode.id).Nodup)
    (htype : ∀ n ∈ next, n.type = .process) :
    (VertexList.mk (g.list.set i ⟨(g.list.cell i).node, next⟩) g.num).Wf := by
  refine ⟨hg.num_le, fun j hj => ?_, fun j hj => ?_, fun j k hj hk hid => ?_, fun j hj => ?_⟩
  · rw [node_set]
    exact hg.type j hj
  · by_cases hji : j = i
    · rw [hji, CArray.cell_set_self]
      exact htype
    · rw [CArray.cell_set_of_ne _ hji]
      exact hg.next j hj
  · rw [node_set, node_set] at hid
    exact hg.distinct j k hj hk hid
  · by_cases hji : j = i
    · rw [hji, CArray.cell_set_self]
      exact hnext
    · rw [CArray.cell_set_of_ne _ hji]
      exact hg.nodup j hj

theorem hasVertex_addEdge {a b : Nat} {g' : VertexList}
    (h : g.addEdge (process a) (process b) = some g') (x : Nat) :
    g'.HasVertex x ↔ g.HasVertex x ∨ x = a ∨ x = b := by
  rcases addEdge_eq_some hg h with ⟨g₁, g₂, i, h₁, h₂, -, -, rfl⟩
  rw [hasVertex_set, hasVertex_addVertex (wf_addVertex hg h₁) h₂, hasVertex_addVertex hg h₁,
    or_assoc]

/-- One edge more. -/
theorem edge_addEdge {a b : Nat} {g' : VertexList}
    (h : g.addEdge (process a) (process b) = some g') (x y : Nat) :
    g'.Edge x y ↔ g.Edge x y ∨ (x = a ∧ y = b) := by
  rcases addEdge_eq_some hg h with ⟨g₁, g₂, i, h₁, h₂, hi, hid, rfl⟩
  have hg₁ := wf_addVertex hg h₁
  have hg₂ := wf_addVertex hg₁ h₂
  -- The two vertices came without edges.
  have hedge : g₂.Edge x y ↔ g.Edge x y :=
    (edge_addVertex hg₁ h₂ x y).trans (edge_addVertex hg h₁ x y)
  rw [edge_set hi hg₂, hid, hedge]
  constructor
  · rintro (⟨-, he⟩ | ⟨rfl, n, hn, rfl⟩)
    · exact Or.inl he
    -- The chain is the old one and the new node.
    · rcases List.mem_append.mp hn with hn | hn
      · exact Or.inl (hedge.mp ⟨i, hi, hid, n, hn, rfl⟩)
      · rw [List.mem_singleton.mp hn]
        exact Or.inr ⟨rfl, rfl⟩
  · rintro (he | ⟨rfl, rfl⟩)
    · by_cases hxa : x = a
      · subst hxa
        rcases hedge.mpr he with ⟨j, hj, hx, n, hn, hy⟩
        obtain rfl : j = i := hg₂.distinct j i hj hi (hx.trans hid.symm)
        exact Or.inr ⟨rfl, n, List.mem_append_left _ hn, hy⟩
      · exact Or.inl ⟨hxa, he⟩
    · exact Or.inr ⟨rfl, process y, List.mem_append_right _ List.mem_cons_self, rfl⟩

theorem wf_addEdge {a b : Nat} {g' : VertexList}
    (h : g.addEdge (process a) (process b) = some g') (hnew : ¬ g.Edge a b) : g'.Wf := by
  rcases addEdge_eq_some hg h with ⟨g₁, g₂, i, h₁, h₂, hi, hid, rfl⟩
  have hg₁ := wf_addVertex hg h₁
  have hg₂ := wf_addVertex hg₁ h₂
  refine wf_set hg₂ ?_ ?_
  · rw [List.map_append, List.nodup_append]
    refine ⟨hg₂.nodup i hi, List.pairwise_singleton _ _, fun x hx y hy => ?_⟩
    -- A node that was in the chain would be the edge.
    rintro rfl
    rcases List.mem_map.mp hx with ⟨n, hn, rfl⟩
    have hb : n.id = b := List.mem_singleton.mp hy
    exact hnew (((edge_addVertex hg₁ h₂ a b).trans (edge_addVertex hg h₁ a b)).mp
      ⟨i, hi, hid, n, hn, hb⟩)
  · intro n hn
    rcases List.mem_append.mp hn with hn | hn
    · exact hg₂.next i hi n hn
    · rw [List.mem_singleton.mp hn]
      rfl

/-! ### Testing for an edge -/

/-- The test is true of an edge, and of a vertex and itself. -/
theorem verifyEdge_eq_some {a b : Nat} {r : Bool}
    (h : g.verifyEdge (process a) (process b) = some r) :
    r = true ↔ g.HasVertex a ∧ (a = b ∨ g.Edge a b) := by
  rw [verifyEdge] at h
  by_cases hnum : g.num = 0
  · rw [if_pos hnum] at h
    rw [← Option.some.inj h]
    refine iff_of_false Bool.false_ne_true ?_
    rintro ⟨⟨i, hi, -⟩, -⟩
    omega
  · rw [if_neg hnum] at h
    simp only [Option.bind_eq_bind, Option.bind_eq_some_iff] at h
    rcases h with ⟨s, hs, h⟩
    rcases searchVertex_eq_some hg hs with ⟨i, rfl, hi, hid⟩ | ⟨rfl, hno⟩
    · rw [if_neg (by omega), Option.bind_eq_some_iff] at h
      rcases h with ⟨v, hv, h⟩
      rcases CArray.read_eq_some hv with ⟨i', hi', -, rfl⟩
      obtain rfl : i = i' := by omega
      -- The test starts at the vertex itself, so it is also true of a thread
      -- and itself.
      rw [← Option.some.inj h, List.any_cons, Bool.or_eq_true, beq_iff_eq, List.any_eq_true, hid]
      change (a = b ∨ _) ↔ _
      constructor
      · rintro (hab | ⟨n, hn, hb⟩)
        · exact ⟨⟨i, hi, hid⟩, Or.inl hab⟩
        · exact ⟨⟨i, hi, hid⟩, Or.inr ⟨i, hi, hid, n, hn, beq_iff_eq.mp hb⟩⟩
      · rintro ⟨-, hab | ⟨j, hj, ha, n, hn, hb⟩⟩
        · exact Or.inl hab
        · obtain rfl : j = i := hg.distinct j i hj hi (ha.trans hid.symm)
          exact Or.inr ⟨n, hn, beq_iff_eq.mpr hb⟩
    · rw [if_pos rfl] at h
      rw [← Option.some.inj h]
      exact iff_of_false Bool.false_ne_true (fun hc => hno hc.1)

/-! ### Removing an edge -/

/-- Either one of the two has no vertex, or the first edge from the one to
    the other is taken out of the chain. -/
theorem removeEdge_eq_some {a b : Nat} {g' : VertexList}
    (h : g.removeEdge (process a) (process b) = some g') :
    (¬ (g.HasVertex a ∧ g.HasVertex b) ∧ g' = g) ∨
      (g.HasVertex b ∧ ∃ i : Nat, (i : Int) < g.num ∧ (g.list.cell i).node.id = a ∧
        g' = ⟨g.list.set i ⟨(g.list.cell i).node,
          (g.list.cell i).next.eraseP (fun n => n.id == b)⟩, g.num⟩) := by
  simp only [removeEdge, Option.bind_eq_bind, Option.bind_eq_some_iff] at h
  rcases h with ⟨r, hr, s, hs, h⟩
  rcases searchVertex_eq_some hg hr with ⟨i, rfl, hi, hid⟩ | ⟨rfl, hno⟩
  · rcases searchVertex_eq_some hg hs with ⟨j, rfl, hj, hjd⟩ | ⟨rfl, hno⟩
    · rw [if_pos ⟨by omega, by omega⟩] at h
      simp only [Option.bind_eq_some_iff] at h
      -- Both have a vertex: the chain of the first is rewritten.
      rcases h with ⟨v, hv, list, hlist, h⟩
      rcases CArray.read_eq_some hv with ⟨i', hi', -, rfl⟩
      rcases CArray.write_eq_some hlist with ⟨i'', hi'', -, rfl⟩
      obtain rfl : i = i' := by omega
      obtain rfl : i = i'' := by omega
      exact Or.inr ⟨⟨j, hj, hjd⟩, i, hi, hid, (Option.some.inj h).symm⟩
    · rw [if_neg (fun hc => hc.2 rfl)] at h
      exact Or.inl ⟨fun hc => hno hc.2, (Option.some.inj h).symm⟩
  · rw [if_neg (fun hc => hc.1 rfl)] at h
    exact Or.inl ⟨fun hc => hno hc.1, (Option.some.inj h).symm⟩

theorem hasVertex_removeEdge {a b : Nat} {g' : VertexList}
    (h : g.removeEdge (process a) (process b) = some g') (x : Nat) :
    g'.HasVertex x ↔ g.HasVertex x := by
  rcases removeEdge_eq_some hg h with ⟨-, rfl⟩ | ⟨-, i, -, -, rfl⟩
  · exact Iff.rfl
  · exact hasVertex_set _ x

theorem num_removeEdge {a b : Nat} {g' : VertexList}
    (h : g.removeEdge (process a) (process b) = some g') : g'.num = g.num := by
  rcases removeEdge_eq_some hg h with ⟨-, rfl⟩ | ⟨-, i, -, -, rfl⟩ <;> rfl

theorem wf_removeEdge {a b : Nat} {g' : VertexList}
    (h : g.removeEdge (process a) (process b) = some g') : g'.Wf := by
  rcases removeEdge_eq_some hg h with ⟨-, rfl⟩ | ⟨-, i, hi, -, rfl⟩
  · exact hg
  · exact wf_set hg ((hg.nodup i hi).sublist ((List.eraseP_sublist).map _))
      (fun n hn => hg.next i hi n (List.mem_of_mem_eraseP hn))

omit hg in
/-- With distinct targets there is nothing left of the one that is erased. -/
theorem mem_eraseP_id {next : List SourceNode} (h : (next.map SourceNode.id).Nodup) (b y : Nat) :
    (∃ n ∈ next.eraseP (fun n => n.id == b), n.id = y) ↔ (∃ n ∈ next, n.id = y) ∧ y ≠ b := by
  induction next with
  | nil => simp
  | cons n next ih =>
      rw [List.map_cons, List.nodup_cons] at h
      by_cases hb : n.id = b
      · rw [List.eraseP_cons_of_pos (p := fun n : SourceNode => n.id == b) (beq_iff_eq.mpr hb)]
        -- The head goes: no other node has its thread.
        constructor
        · rintro ⟨m, hm, rfl⟩
          refine ⟨⟨m, List.mem_cons_of_mem n hm, rfl⟩, ?_⟩
          rintro rfl
          exact h.1 (List.mem_map.mpr ⟨m, hm, hb.symm⟩)
        · rintro ⟨⟨m, hm, rfl⟩, hne⟩
          rcases List.mem_cons.mp hm with rfl | hm
          · exact absurd hb hne
          · exact ⟨m, hm, rfl⟩
      · rw [List.eraseP_cons_of_neg (p := fun n : SourceNode => n.id == b)
          (by rw [beq_iff_eq]; exact hb)]
        -- The head stays, and the tail is as by induction.
        constructor
        · rintro ⟨m, hm, rfl⟩
          rcases List.mem_cons.mp hm with rfl | hm
          · exact ⟨⟨m, List.mem_cons_self, rfl⟩, hb⟩
          · rcases (ih h.2).mp ⟨m, hm, rfl⟩ with ⟨⟨k, hk, hkm⟩, hne⟩
            exact ⟨⟨k, List.mem_cons_of_mem n hk, hkm⟩, hne⟩
        · rintro ⟨⟨m, hm, rfl⟩, hne⟩
          rcases List.mem_cons.mp hm with rfl | hm
          · exact ⟨m, List.mem_cons_self, rfl⟩
          · rcases (ih h.2).mpr ⟨⟨m, hm, rfl⟩, hne⟩ with ⟨k, hk, hkm⟩
            exact ⟨k, List.mem_cons_of_mem n hk, hkm⟩

/-- One edge less, if its target has a vertex. -/
theorem edge_removeEdge {a b : Nat} {g' : VertexList}
    (h : g.removeEdge (process a) (process b) = some g') (x y : Nat) :
    g'.Edge x y ↔ g.Edge x y ∧ ¬ (x = a ∧ y = b ∧ g.HasVertex b) := by
  rcases removeEdge_eq_some hg h with ⟨hno, rfl⟩ | ⟨hb, i, hi, hid, rfl⟩
  · refine ⟨fun he => ⟨he, ?_⟩, fun he => he.1⟩
    rintro ⟨rfl, rfl, hb⟩
    exact hno ⟨he.hasVertex, hb⟩
  · rw [edge_set hi hg, hid, mem_eraseP_id (hg.nodup i hi)]
    constructor
    · rintro (⟨hne, he⟩ | ⟨rfl, ⟨n, hn, hy⟩, hne⟩)
      · exact ⟨he, fun hc => hne hc.1⟩
      · exact ⟨⟨i, hi, hid, n, hn, hy⟩, fun hc => hne hc.2.1⟩
    · rintro ⟨he, hne⟩
      -- Only the chain of `a` has changed.
      by_cases hxa : x = a
      · subst hxa
        rcases he with ⟨j, hj, hx, hn⟩
        obtain rfl : j = i := hg.distinct j i hj hi (hx.trans hid.symm)
        exact Or.inr ⟨rfl, hn, fun hy => hne ⟨rfl, hy, hb⟩⟩
      · exact Or.inl ⟨hxa, he⟩

end Operations

/-! ### Hiding a vertex -/

/-- Hiding a vertex without edges. -/
theorem edge_hide {g : VertexList} (hlast : ∀ i : Nat, (i : Int) + 1 = g.num →
    (g.list.cell i).next = []) (a b : Nat) :
    (VertexList.mk g.list (g.num - 1)).Edge a b ↔ g.Edge a b := by
  constructor
  · rintro ⟨i, hi, ha, hn⟩
    have hi' : (i : Int) < g.num - 1 := hi
    exact ⟨i, by omega, ha, hn⟩
  · rintro ⟨i, hi, ha, n, hn, hb⟩
    refine ⟨i, ?_, ha, n, hn, hb⟩
    -- The vertex that is hidden has an empty chain.
    by_cases hlt : (i : Int) < g.num - 1
    · exact hlt
    · rw [hlast i (by omega)] at hn
      exact absurd hn List.not_mem_nil

theorem wf_hide {g : VertexList} (hg : g.Wf) : (VertexList.mk g.list (g.num - 1)).Wf := by
  have hlt : ∀ i : Nat, (i : Int) < g.num - 1 → (i : Int) < g.num := fun i hi => by omega
  refine ⟨?_, fun i hi => hg.type i (hlt i hi), fun i hi => hg.next i (hlt i hi),
    fun i j hi hj => hg.distinct i j (hlt i hi) (hlt j hj), fun i hi => hg.nodup i (hlt i hi)⟩
  change g.num - 1 ≤ (MAX : Int)
  have := hg.num_le
  omega

end VertexList

end DeadlockDetector

end BlogSample
