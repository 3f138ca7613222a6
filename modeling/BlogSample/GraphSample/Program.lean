import BlogSample.DotNet
import BlogSample.Theory.Fuel
import Mathlib.Data.List.Induction

/-!
# Graphs and Their Scans

`Graph` with its adjacency lists, and the two scans of it. The linked nodes of a
vertex are the list of their values, with `null` as the empty list: no node is
shared, and none is changed except that another one is linked after the last.

A name may be `null`, which a dictionary takes for a key in none of its methods,
while `InsertEdge` puts it into a node without looking.

A scan gives the lines that it writes. One that throws gives the exception only.

## Main definitions

* `Name`, `key`: Names, and names as keys.
* `Graph`, `insertVertex`, `insertEdge`, `getVertexNode`: The graph.
* `Insertion`, `build`: Graphs as they are built.
* `dfsScan`, `bfsScan`: The scans.
* `targets`: The ends of the edges from a vertex, in insertion order.
* `Marks`: The vertices that are marked as visited.

## Theorems

* `getVertexNode_eq_ok_iff`: The lists of a graph that has been built.
* `marks_unvisited`, `Marks.assign`: The marks at the beginning and after another one.
-/

namespace BlogSample

namespace GraphSample

open DotNet Fuel

/-- A string, or `null`. -/
abbrev Name := Option String

/-- The key of a dictionary's method, which throws on `null`. -/
def key : Name → Except Exn String
  | none => throw .argumentNull
  | some k => pure k

/-- `d[name]`. -/
def item {ν : Type} (d : Dictionary String ν) (name : Name) : Except Exn ν := do
  let k ← key name
  d.item k

/-- `d[name] = v`. -/
def assign {ν : Type} (d : Dictionary String ν) (name : Name) (v : ν) :
    Except Exn (Dictionary String ν) := do
  let k ← key name
  pure (d.set k v)

/-- `Graph`. -/
structure Graph where
  vertexs : Dictionary String (List Name)

namespace Graph

/-- `new Graph(n)`. Nothing reads the size. -/
def new : Graph where
  vertexs := Dictionary.empty

/-- `InsertVertex(vertex)`. -/
def insertVertex (g : Graph) (vertex : Name) : Except Exn (Bool × Graph) := do
  let k ← key vertex
  pure ((g.vertexs.tryGetValue k).isNone, { g with vertexs := g.vertexs.tryAdd k [] })

/-- The chain of nodes with a new one after its last. -/
def link : List Name → Name → List Name
  | [], gTo => [gTo]
  | cur :: next, gTo => cur :: link next gTo

/-- `InsertEdge(gFrom, gTo)`. -/
def insertEdge (g : Graph) (gFrom gTo : Name) : Except Exn Graph := do
  let node ← item g.vertexs gFrom
  -- `gTo` is not looked up.
  let vertexs ← assign g.vertexs gFrom (link node gTo)
  pure { g with vertexs }

/-- `GetVertexNode(vertex)`. -/
def getVertexNode (g : Graph) (vertex : Name) : Except Exn (List Name) :=
  item g.vertexs vertex

/-- `Vertexs.ToDictionary(x => x.Key, v => false)`. -/
def unvisited (g : Graph) : Dictionary String Bool where
  entries := g.vertexs.entries.map (fun x => (x.1, false))
  nodup := by
    rw [List.map_map]
    exact g.vertexs.nodup

end Graph

/-- A call of one of the methods that build a graph. -/
inductive Insertion where
  | insertVertex (vertex : Name)
  | insertEdge (gFrom gTo : Name)
  deriving DecidableEq, Repr

/-- The graph after a call. -/
def Insertion.apply (g : Graph) : Insertion → Except Exn Graph
  | insertVertex vertex => do
      -- Nobody asks whether the vertex was new.
      let r ← g.insertVertex vertex
      pure r.2
  | insertEdge gFrom gTo => g.insertEdge gFrom gTo

/-- The graph after some calls. -/
def build (calls : List Insertion) : Except Exn Graph :=
  calls.foldlM Insertion.apply Graph.new

/-! ### The depth-first scan -/

/-- The dictionary and the lines written so far. -/
structure DfsState where
  visited : Dictionary String Bool
  lines : List Name

/-- The body of the loop over the nodes of a vertex, with the call for a node. -/
def visitNew (scan : Name → DfsState → Call Exn DfsState) (s : DfsState) (value : Name) :
    Call Exn DfsState := do
  let seen ← item s.visited value
  if seen then
    pure s
  else
    -- The vertex is marked here, and once more by its own call.
    let visited ← assign s.visited value true
    scan value { s with visited }

/-- `DFS.Scan(vertex, visited)`. -/
def dfsScan (g : Graph) : ℕ → Name → DfsState → Call Exn DfsState
  | 0, _, _ => outOfFuel
  | fuel + 1, vertex, s => do
      let node ← g.getVertexNode vertex
      let visited ← assign s.visited vertex true
      node.foldlM (visitNew (dfsScan g fuel)) { visited, lines := s.lines ++ [vertex] }

/-- `DFS.Scan(vertex)`. -/
def dfs (g : Graph) (vertex : Name) (fuel : ℕ) : Call Exn (List Name) := do
  let s ← dfsScan g fuel vertex { visited := g.unvisited, lines := [] }
  pure s.lines

/-! ### The breadth-first scan -/

/-- The variables of the loop, and the lines written so far. -/
structure BfsState where
  visited : Dictionary String Bool
  queue : List Name
  lines : List Name

/-- The loop over the nodes of a vertex. -/
def enqueueNew (s : Dictionary String Bool × List Name) (value : Name) :
    Except Exn (Dictionary String Bool × List Name) := do
  let seen ← item s.1 value
  let queue := if seen then s.2 else s.2 ++ [value]
  -- It is marked in both cases.
  let visited ← assign s.1 value true
  pure (visited, queue)

/-- The body of the loop over the queue. -/
def dequeue (g : Graph) (s : BfsState) : Except Exn BfsState :=
  match s.queue with
  | [] => throw .invalidOperation
  | vtx :: queue => do
      let node ← g.getVertexNode vtx
      let (visited, queue) ← node.foldlM enqueueNew (s.visited, queue)
      pure { visited, queue, lines := s.lines ++ [vtx] }

/-- `BFS.Scan(vertex)`. -/
def bfs (g : Graph) (vertex : Name) (fuel : ℕ) : Call Exn (List Name) := do
  let visited ← assign g.unvisited vertex true
  let s ← whileLoop (fun s => !s.queue.isEmpty) (fun s => liftM (dequeue g s)) fuel
    { visited, queue := [vertex], lines := [] }
  pure s.lines

/-! ### What is built -/

/-- The ends of the edges from a vertex, in insertion order. -/
def targets (calls : List Insertion) (vertex : Name) : List Name :=
  calls.filterMap (fun
    | .insertVertex _ => none
    | .insertEdge gFrom gTo => if gFrom = vertex then some gTo else none)

theorem mem_targets {calls : List Insertion} {v w : Name} :
    w ∈ targets calls v ↔ .insertEdge v w ∈ calls := by
  unfold targets
  rw [List.mem_filterMap]
  constructor
  · rintro ⟨c, hc, heq⟩
    cases c with
    | insertVertex u => cases heq
    | insertEdge gFrom gTo =>
        by_cases h : gFrom = v
        · simp only [if_pos h, Option.some.injEq] at heq
          rw [← h, ← heq]
          exact hc
        · simp only [if_neg h, reduceCtorEq] at heq
  · intro h
    refine ⟨_, h, ?_⟩
    simp only [if_pos]

theorem targets_insertVertex (calls : List Insertion) (u v : Name) :
    targets (calls ++ [.insertVertex u]) v = targets calls v := by
  unfold targets
  rw [List.filterMap_append]
  exact List.append_nil _

theorem targets_insertEdge (calls : List Insertion) (gFrom gTo v : Name) :
    targets (calls ++ [.insertEdge gFrom gTo]) v =
      if gFrom = v then targets calls v ++ [gTo] else targets calls v := by
  unfold targets
  rw [List.filterMap_append]
  by_cases h : gFrom = v
  · rw [if_pos h, h]
    simp
  · rw [if_neg h]
    simp [h]

theorem item_eq_ok_iff {ν : Type} {d : Dictionary String ν} {name : Name} {v : ν} :
    item d name = .ok v ↔ ∃ k, name = some k ∧ d.tryGetValue k = some v := by
  cases name with
  | none =>
      refine iff_of_false (fun h => ?_) ?_
      · cases h
      · rintro ⟨k, hk, -⟩
        cases hk
  | some k =>
      have hitem : item d (some k) = d.item k := rfl
      rw [hitem, d.item_eq_ok_iff, ← d.tryGetValue_eq_some_iff]
      constructor
      · exact fun h => ⟨k, rfl, h⟩
      -- The name has one key only.
      · rintro ⟨k', hk, h⟩
        rw [Option.some.inj hk]
        exact h

theorem Graph.link_eq (node : List Name) (gTo : Name) : link node gTo = node ++ [gTo] := by
  induction node with
  | nil => rfl
  | cons cur next ih => rw [link, ih, List.cons_append]

/-- What a graph holds after some calls. -/
structure Built (calls : List Insertion) (g : Graph) : Prop where
  vertexs (k : String) : g.vertexs.tryGetValue k =
    if .insertVertex (some k) ∈ calls then some (targets calls (some k)) else none
  inserted (v w : Name) : .insertEdge v w ∈ calls → .insertVertex v ∈ calls
  named : .insertVertex none ∉ calls

theorem Built.targets_eq_nil {calls : List Insertion} {g : Graph} (h : Built calls g) {v : Name}
    (hv : .insertVertex v ∉ calls) : targets calls v = [] :=
  List.eq_nil_iff_forall_not_mem.mpr
    (fun w hw => hv (h.inserted v w (mem_targets.mp hw)))

theorem Built.insertVertex {calls : List Insertion} {g g' : Graph} (h : Built calls g)
    {vertex : Name} (happly : (Insertion.insertVertex vertex).apply g = .ok g') :
    Built (calls ++ [.insertVertex vertex]) g' := by
  cases vertex with
  | none => cases happly
  | some k =>
      obtain rfl : { g with vertexs := g.vertexs.tryAdd k [] } = g' := Except.ok.inj happly
      refine ⟨fun k' => ?_, fun v w hvw => ?_, fun hnone => ?_⟩
      · rw [Dictionary.tryGetValue_tryAdd, targets_insertVertex, h.vertexs, h.vertexs]
        by_cases hk : k' = k
        -- A vertex that is there already keeps its list, and a new one has no edge yet.
        · rw [if_pos hk, hk, if_pos (List.mem_append_right _ List.mem_cons_self)]
          by_cases hin : .insertVertex (some k) ∈ calls
          · rw [if_pos hin]
            rfl
          · rw [if_neg hin, h.targets_eq_nil hin]
            rfl
        · rw [if_neg hk]
          simp [hk]
      · have hin := h.inserted v w (by simpa using hvw)
        exact List.mem_append_left _ hin
      · exact h.named (by simpa using hnone)

theorem Built.insertEdge {calls : List Insertion} {g g' : Graph} (h : Built calls g)
    {gFrom gTo : Name} (happly : (Insertion.insertEdge gFrom gTo).apply g = .ok g') :
    Built (calls ++ [.insertEdge gFrom gTo]) g' := by
  rcases bind_eq_ok happly with ⟨node, hitem, hrest⟩
  rcases item_eq_ok_iff.mp hitem with ⟨k, rfl, hget⟩
  rw [h.vertexs] at hget
  by_cases hin : .insertVertex (some k) ∈ calls
  -- The indexer has found the list, which gets the new end after its last.
  · rw [if_pos hin, Option.some.injEq] at hget
    obtain rfl : { g with vertexs := g.vertexs.set k (Graph.link node gTo) } = g' :=
      Except.ok.inj hrest
    refine ⟨fun k' => ?_, fun v w hvw => ?_, fun hnone => ?_⟩
    · rw [Dictionary.tryGetValue_set_eq, targets_insertEdge, h.vertexs, Graph.link_eq]
      by_cases hk : k' = k
      · rw [if_pos hk, hk, if_pos (List.mem_append_left _ hin), if_pos rfl, hget]
      · rw [if_neg hk, if_neg (fun heq => hk (Option.some.inj heq).symm)]
        simp
    · rcases List.mem_append.mp hvw with hvw | hvw
      · exact List.mem_append_left _ (h.inserted v w hvw)
      -- The new edge comes from a vertex that the indexer has found.
      · rw [List.mem_singleton, Insertion.insertEdge.injEq] at hvw
        rw [hvw.1]
        exact List.mem_append_left _ hin
    · exact h.named (by simpa using hnone)
  -- There is no such vertex, and the call has thrown.
  · rw [if_neg hin] at hget
    cases hget

theorem built_build {calls : List Insertion} {g : Graph} (h : build calls = .ok g) :
    Built calls g := by
  -- The last call is made on the graph of those before it.
  induction calls using List.reverseRecOn generalizing g with
  | nil =>
      obtain rfl : Graph.new = g := Except.ok.inj h
      refine ⟨fun k => rfl, fun v w hvw => ?_, List.not_mem_nil⟩
      cases hvw
  | append_singleton calls c ih =>
      unfold build at h
      rw [List.foldlM_append] at h
      rcases bind_eq_ok h with ⟨g', hg', hlast⟩
      rw [List.foldlM_cons] at hlast
      rcases bind_eq_ok hlast with ⟨g'', happly, hnil⟩
      obtain rfl : g'' = g := Except.ok.inj hnil
      cases c with
      | insertVertex vertex => exact (ih hg').insertVertex happly
      | insertEdge gFrom gTo => exact (ih hg').insertEdge happly

/-- The vertices are those that were inserted, and their lists are the ends of their edges in
    the order in which these were. -/
theorem Built.getVertexNode_eq_ok_iff {calls : List Insertion} {g : Graph} (h : Built calls g)
    {v : Name} {node : List Name} :
    g.getVertexNode v = .ok node ↔ .insertVertex v ∈ calls ∧ node = targets calls v := by
  unfold Graph.getVertexNode
  rw [item_eq_ok_iff]
  constructor
  · rintro ⟨k, rfl, hget⟩
    rw [h.vertexs] at hget
    by_cases hin : .insertVertex (some k) ∈ calls
    · rw [if_pos hin, Option.some.injEq] at hget
      exact ⟨hin, hget.symm⟩
    · rw [if_neg hin] at hget
      cases hget
  · rintro ⟨hin, rfl⟩
    cases v with
    | none => exact absurd hin h.named
    | some k => exact ⟨k, rfl, by rw [h.vertexs, if_pos hin]⟩

/-! ### What is marked -/

/-- The dictionary has the vertices that were inserted, and of these the ones in the list are
    marked. -/
def Marks (calls : List Insertion) (visited : Dictionary String Bool) (marked : List Name) : Prop :=
  ∀ v, .insertVertex v ∈ calls → item visited v = .ok (decide (v ∈ marked))

theorem marks_unvisited {calls : List Insertion} {g : Graph} (h : Built calls g) :
    Marks calls g.unvisited [] := by
  intro v hv
  rcases item_eq_ok_iff.mp (h.getVertexNode_eq_ok_iff.mpr ⟨hv, rfl⟩) with ⟨k, rfl, hget⟩
  rw [Dictionary.tryGetValue_eq_some_iff] at hget
  refine item_eq_ok_iff.mpr ⟨k, rfl, (g.unvisited.tryGetValue_eq_some_iff k _).mpr ?_⟩
  exact List.mem_map.mpr ⟨_, hget, rfl⟩

/-- Another vertex is marked. -/
theorem Marks.assign {calls : List Insertion} {visited : Dictionary String Bool}
    {marked marked' : List Name} (h : Marks calls visited marked) {v : Name}
    (hv : .insertVertex v ∈ calls) (hmarked : ∀ u, u ∈ marked' ↔ u ∈ marked ∨ u = v) :
    ∃ visited', assign visited v true = .ok visited' ∧ Marks calls visited' marked' := by
  rcases item_eq_ok_iff.mp (h v hv) with ⟨k, rfl, -⟩
  refine ⟨visited.set k true, rfl, fun u hu => ?_⟩
  rcases item_eq_ok_iff.mp (h u hu) with ⟨k', rfl, hget⟩
  refine item_eq_ok_iff.mpr ⟨k', rfl, ?_⟩
  rw [Dictionary.tryGetValue_set_eq]
  by_cases hk : k' = k
  · rw [if_pos hk, decide_eq_true ((hmarked _).mpr (.inr (congrArg some hk)))]
  · rw [if_neg hk, hget, decide_eq_decide.mpr]
    rw [hmarked, or_iff_left (fun heq => hk (Option.some.inj heq))]

end GraphSample

end BlogSample
