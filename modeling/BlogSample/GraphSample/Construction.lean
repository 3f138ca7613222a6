import BlogSample.GraphSample.Scans

/-!
# Edges to Nowhere

The scans look up the value of every node they come to, and so they rely on the
values being vertices. `InsertEdge` looks up the vertex that the edge comes from
and throws if there is none. The vertex that the edge leads to it takes as it is.

The edges lead to vertices if and only if both were inserted, sooner or later:
the order of the calls does not matter, as an edge may be inserted before the
vertex it leads to.

## Main definitions

* `KeepsEdges`: The edges of a graph lead to vertices.
* `NeverThrows`: The scans of a graph end without an exception.

## Theorems

* `keepsEdges_iff`: The condition on the calls.
* `construction_iff`: The graph and its scans.
-/

namespace BlogSample

namespace GraphSample

open DotNet Fuel

/-- The value of each node is a vertex. -/
def KeepsEdges (g : Graph) : Prop :=
  ∀ v node, g.getVertexNode v = .ok node →
    ∀ value ∈ node, ∃ node', g.getVertexNode value = .ok node'

/-- Both scans from any vertex return if they have enough fuel. -/
def NeverThrows (g : Graph) : Prop :=
  ∀ v node, g.getVertexNode v = .ok node →
    (∃ out, Terminates (bfs g v) out) ∧ ∃ out, Terminates (dfs g v) out

variable {calls : List Insertion} {g : Graph}

theorem keepsEdges_iff (hg : Built calls g) :
    KeepsEdges g ↔ ∀ v w, .insertEdge v w ∈ calls → .insertVertex w ∈ calls := by
  constructor
  · intro h v w hvw
    -- The edge is in the list of the vertex that it comes from.
    have hv : g.getVertexNode v = .ok (targets calls v) :=
      hg.getVertexNode_eq_ok_iff.mpr ⟨hg.inserted v w hvw, rfl⟩
    rcases h v _ hv w (mem_targets.mpr hvw) with ⟨node, hnode⟩
    exact (hg.getVertexNode_eq_ok_iff.mp hnode).1
  · intro h v node hnode value hvalue
    rw [(hg.getVertexNode_eq_ok_iff.mp hnode).2] at hvalue
    exact ⟨_, hg.getVertexNode_eq_ok_iff.mpr ⟨h v value (mem_targets.mp hvalue), rfl⟩⟩

/-- A graph that has been built without an exception keeps its edges between vertices, and its
    scans throw nothing, if and only if every vertex that an edge leads to was inserted. -/
theorem construction_iff (hbuild : build calls = .ok g) :
    KeepsEdges g ∧ NeverThrows g ↔ ∀ v w, .insertEdge v w ∈ calls → .insertVertex w ∈ calls := by
  have hg := built_build hbuild
  rw [← keepsEdges_iff hg]
  -- With its edges between vertices the graph is one that both scans get through.
  refine and_iff_left_of_imp (fun hkeeps v node hnode => ?_)
  have hclosed : Closed calls := fun v w hvw =>
    ⟨hg.inserted v w hvw, (keepsEdges_iff hg).mp hkeeps v w hvw⟩
  have hv := (hg.getVertexNode_eq_ok_iff.mp hnode).1
  rcases bfs_found hg hclosed hv with ⟨out, hbfs, -⟩
  rcases dfs_lists hg hclosed hv with ⟨out', hdfs, -⟩
  exact ⟨⟨out, hbfs⟩, ⟨out', hdfs⟩⟩

/-- The graph of `Main`. -/
theorem construction_main : ∃ g, build mainCalls = .ok g ∧
    (KeepsEdges g ∧ NeverThrows g ↔
      ∀ v w, .insertEdge v w ∈ mainCalls → .insertVertex w ∈ mainCalls) :=
  ⟨_, rfl, construction_iff rfl⟩

/-- An edge to a vertex that was never inserted is accepted, and both scans throw when they come
    to it. -/
theorem not_keepsEdges_missing : ∃ g,
    build [.insertVertex (some "A"), .insertEdge (some "A") (some "B")] = .ok g ∧
      ¬ KeepsEdges g ∧ ¬ NeverThrows g ∧
      ∀ fuel, (bfs g (some "A") (fuel + 2)).run = some (.error .keyNotFound) ∧
        (dfs g (some "A") (fuel + 2)).run = some (.error .keyNotFound) := by
  refine ⟨_, rfl, fun h => ?_, fun h => ?_, fun fuel => ⟨rfl, rfl⟩⟩
  · rcases h (some "A") _ rfl (some "B") (by decide) with ⟨node, hnode⟩
    cases hnode
  · rcases (h (some "A") _ rfl).1 with ⟨out, bound, hret⟩
    cases hret (bound + 2) (by omega)

end GraphSample

end BlogSample
