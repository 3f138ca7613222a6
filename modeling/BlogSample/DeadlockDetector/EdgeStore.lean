import BlogSample.DeadlockDetector.Cycles
import Mathlib.Data.Finset.Union

/-!
# The Edges That Are Stored

What any calls of `add_edge` and `remove_edge` leave in the vertex list. The chains hold
the edges as a multiset: each call adds one or takes one out, and no call changes how
often another edge is stored. `verify_edge` does not answer quite that. Its walk starts at
the vertex itself and not behind it, as the walk of `remove_edge` does, so it finds an
edge from a thread to itself as soon as the thread has a vertex.

A thread gets its vertex from the first `add_edge` that names it, so a call for one pair
can change the answer for another one, if that is of a thread and itself.

## Main definitions

* `EdgeCall`: A call of `add_edge` or `remove_edge`.
* `frees`: Whether `remove_edge` takes out an edge.
* `run`: Some calls, and the edges that were taken out.
* `edges`, `vertices`: The multiset of edges, and the threads that have a vertex.
* `Stores`: The chains hold the edges.

## Theorems

* `Stores.addEdge`, `Stores.removeEdge`, `Stores.verifyEdge`: The operations.
* `Stores.run`: The calls have the result they should have.
* `edgeStore_iff`: When the answer of `verify_edge` is right, and when a call for another
  pair changes it.
-/

namespace BlogSample

namespace DeadlockDetector

open VertexList

/-- A call of `add_edge` or `remove_edge` with the nodes of two threads. -/
inductive EdgeCall where
  | addEdge (src dst : Nat)
  | removeEdge (src dst : Nat)
  deriving DecidableEq

namespace EdgeCall

/-- The pair of threads that a call is for. -/
def pair : EdgeCall → Nat × Nat
  | addEdge src dst => (src, dst)
  | removeEdge src dst => (src, dst)

/-- The threads that get a vertex, if they have none. -/
def vertices : EdgeCall → Finset Nat
  | addEdge src dst => {src, dst}
  | removeEdge _ _ => ∅

/-- What a call does to a multiset of edges. -/
def apply (m : Multiset (Nat × Nat)) : EdgeCall → Multiset (Nat × Nat)
  | addEdge src dst => (src, dst) ::ₘ m
  | removeEdge src dst => m.erase (src, dst)

/-- What a call takes out of a multiset of edges. -/
def freed (m : Multiset (Nat × Nat)) : EdgeCall → List (Nat × Nat)
  | addEdge _ _ => []
  | removeEdge src dst => if (src, dst) ∈ m then [(src, dst)] else []

/-- An edge is there as often as it was, and once more if it is added or once less if it is
    taken out. -/
theorem count_apply (m : Multiset (Nat × Nat)) (c : EdgeCall) (a b : Nat) :
    (c.apply m).count (a, b) + (c.freed m).count (a, b) =
      m.count (a, b) + [c].count (addEdge a b) := by
  cases c with
  | addEdge src dst =>
      have hsame : (a, b) = (src, dst) ↔ (addEdge src dst == addEdge a b) = true := by
        rw [beq_iff_eq, addEdge.injEq, Prod.mk.injEq, eq_comm, @eq_comm _ b]
      rw [apply, freed, List.count_nil, Nat.add_zero, Multiset.count_cons, List.count_singleton]
      exact congrArg _ (if_congr hsame rfl rfl)
  | removeEdge src dst =>
      have hother : [removeEdge src dst].count (addEdge a b) = 0 := by
        refine List.count_eq_zero.mpr (fun hmem => ?_)
        cases List.mem_singleton.mp hmem
      rw [apply, freed, hother, Nat.add_zero]
      by_cases hmem : (src, dst) ∈ m
      · rw [if_pos hmem, List.count_singleton]
        by_cases hsame : (a, b) = (src, dst)
        · have hpos := Multiset.count_pos.mpr hmem
          rw [hsame, Multiset.count_erase_self, if_pos (beq_self_eq_true _)]
          omega
        · rw [Multiset.count_erase_of_ne hsame, if_neg (fun h => hsame (beq_iff_eq.mp h).symm),
            Nat.add_zero]
      · rw [if_neg hmem, Multiset.erase_of_notMem hmem, List.count_nil, Nat.add_zero]

/-- A call leaves the edges between other pairs. -/
theorem mem_apply (m : Multiset (Nat × Nat)) {c : EdgeCall} {e : Nat × Nat} (he : c.pair ≠ e) :
    e ∈ c.apply m ↔ e ∈ m := by
  cases c with
  | addEdge src dst =>
      rw [apply, Multiset.mem_cons]
      exact or_iff_right (Ne.symm he)
  | removeEdge src dst => exact Multiset.mem_erase_of_ne (Ne.symm he)

end EdgeCall

/-- The ids of all nodes in some calls. -/
def ids (calls : List EdgeCall) : Finset Nat :=
  calls.toFinset.biUnion (fun c => {c.pair.1, c.pair.2})

/-- The threads that some calls of `add_edge` name. -/
def vertices (calls : List EdgeCall) : Finset Nat :=
  calls.toFinset.biUnion EdgeCall.vertices

@[simp]
theorem vertices_nil : vertices [] = ∅ :=
  rfl

theorem vertices_cons (c : EdgeCall) (calls : List EdgeCall) :
    vertices (c :: calls) = c.vertices ∪ vertices calls := by
  rw [vertices, List.toFinset_cons, Finset.biUnion_insert]
  rfl

theorem ids_cons (c : EdgeCall) (calls : List EdgeCall) :
    ids (c :: calls) = {c.pair.1, c.pair.2} ∪ ids calls := by
  rw [ids, List.toFinset_cons, Finset.biUnion_insert]
  rfl

theorem EdgeCall.vertices_subset (c : EdgeCall) : c.vertices ⊆ {c.pair.1, c.pair.2} := by
  cases c with
  | addEdge src dst => exact Finset.Subset.refl _
  | removeEdge src dst => exact Finset.empty_subset _

/-- The edges that some calls leave. -/
def edges (calls : List EdgeCall) : Multiset (Nat × Nat) :=
  calls.foldl EdgeCall.apply 0

theorem vertices_concat (calls : List EdgeCall) (c : EdgeCall) :
    vertices (calls ++ [c]) = vertices calls ∪ c.vertices := by
  rw [vertices, List.toFinset_append, Finset.union_biUnion, List.toFinset_cons,
    List.toFinset_nil, insert_empty_eq, Finset.singleton_biUnion]
  rfl

theorem edges_concat (calls : List EdgeCall) (c : EdgeCall) :
    edges (calls ++ [c]) = c.apply (edges calls) := by
  rw [edges, List.foldl_append]
  rfl

/-- `remove_edge(from, to)` comes to `free(remove)`. -/
def frees (g : VertexList) (src dst : SourceNode) : Option Bool := do
  let idxi ← g.searchVertex src
  let idxj ← g.searchVertex dst
  if idxi ≠ -1 ∧ idxj ≠ -1 then do
    let v ← g.list.read idxi
    pure (v.next.any (fun n => n.id == dst.id))
  else pure false

/-- A call, and the edge it has taken out. -/
def call (g : VertexList) : EdgeCall → Option (VertexList × List (Nat × Nat))
  | .addEdge src dst => do
      let g ← g.addEdge (process src) (process dst)
      pure (g, [])
  | .removeEdge src dst => do
      let freed ← frees g (process src) (process dst)
      let g ← g.removeEdge (process src) (process dst)
      pure (g, if freed then [(src, dst)] else [])

/-- Some calls one after the other, and the edges they have taken out. -/
def run : VertexList → List EdgeCall → Option (VertexList × List (Nat × Nat))
  | g, [] => pure (g, [])
  | g, c :: calls => do
      let (g, freed) ← call g c
      let (g, rest) ← run g calls
      pure (g, freed ++ rest)

/-! ### What the vertex list stores -/

/-- The vertices are those of some threads, and their chains hold a multiset of edges. -/
structure Stores (g : VertexList) (verts : Finset Nat) (m : Multiset (Nat × Nat)) : Prop where
  sound : Sound g
  type : ∀ i : Nat, (i : Int) < g.num → (g.list.cell i).node.type = .process
  vertex : ∀ x, g.HasVertex x ↔ x ∈ verts
  chain : ∀ i : Nat, (i : Int) < g.num → ∀ y,
    m.count ((g.list.cell i).node.id, y) = ((g.list.cell i).next.map SourceNode.id).count y
  source : ∀ e ∈ m, e.1 ∈ verts

theorem stores_new (list : CArray Vertex MAX) : Stores ⟨list, 0⟩ ∅ 0 where
  sound := (Built.new list).sound
  type := fun i hi => absurd hi (Int.not_lt.mpr (Int.natCast_nonneg i))
  vertex := fun x => by
    refine iff_of_false ?_ (Finset.notMem_empty x)
    rintro ⟨i, hi, -⟩
    exact absurd hi (Int.not_lt.mpr (Int.natCast_nonneg i))
  chain := fun i hi => absurd hi (Int.not_lt.mpr (Int.natCast_nonneg i))
  source := fun e he => absurd he (Multiset.notMem_zero e)

namespace Stores

variable {g : VertexList} {verts : Finset Nat} {m : Multiset (Nat × Nat)}

theorem node_eq (h : Stores g verts m) {i : Nat} (hi : (i : Int) < g.num) :
    (g.list.cell i).node = process (g.list.cell i).node.id := by
  rw [process, ← h.type i hi]

/-- No thread has two vertices. -/
theorem id_injective (h : Stores g verts m) {i j : Nat} (hi : (i : Int) < g.num)
    (hj : (j : Int) < g.num) (hid : (g.list.cell i).node.id = (g.list.cell j).node.id) :
    i = j := by
  refine h.sound.distinct i j hi hj ?_
  rw [h.node_eq hi, h.node_eq hj, hid]

/-- There are as many vertices as threads that have one. -/
theorem num_eq (h : Stores g verts m) : g.num = (verts.card : Int) := by
  have hnonneg := h.sound.num_nonneg
  have himage : (Finset.range g.num.toNat).image (fun i => (g.list.cell i).node.id) = verts := by
    ext x
    rw [← h.vertex x, Finset.mem_image]
    refine exists_congr (fun i => and_congr_left (fun _ => ?_))
    rw [Finset.mem_range]
    omega
  have hcard := Finset.card_image_of_injOn (s := Finset.range g.num.toNat)
    (f := fun i => (g.list.cell i).node.id) (by
      intro i hi j hj hid
      rw [Finset.mem_coe, Finset.mem_range] at hi hj
      exact h.id_injective (by omega) (by omega) hid)
  rw [himage, Finset.card_range] at hcard
  omega

/-- What a search for a thread finds. -/
theorem search (h : Stores g verts m) (x : Nat) :
    (∃ i : Nat, g.searchVertex (process x) = some (i : Int) ∧ (i : Int) < g.num ∧ i < MAX ∧
        (g.list.cell i).node = process x ∧ x ∈ verts) ∨
      (g.searchVertex (process x) = some (-1) ∧ x ∉ verts) := by
  have hle := h.sound.num_le
  by_cases hx : x ∈ verts
  · rcases (h.vertex x).mpr hx with ⟨i, hi, rfl⟩
    rcases searchVertex_of_hasNode hle ⟨i, hi, h.node_eq hi⟩ with ⟨j, hj, hlt, hnode⟩
    exact .inl ⟨j, hj, hlt, by omega, hnode, hx⟩
  · rcases CArray.scan_total g.list
      (fun v => v.node.type == (process x).type && v.node.id == (process x).id) hle with ⟨r, hr⟩
    have hr : g.searchVertex (process x) = some r := hr
    rcases searchVertex_some hr with ⟨i, -, hi, hnode⟩ | ⟨rfl, -⟩
    · exact absurd ((h.vertex x).mp ⟨i, hi, congrArg SourceNode.id hnode⟩) hx
    · exact .inr ⟨hr, hx⟩

/-- An edge is stored in the chain of its vertex, as often as it has to be. -/
theorem count_eq (h : Stores g verts m) {i : Nat} (hi : (i : Int) < g.num) {x : Nat}
    (hnode : (g.list.cell i).node = process x) (y : Nat) :
    m.count (x, y) = ((g.list.cell i).next.map SourceNode.id).count y := by
  have hcount := h.chain i hi y
  rw [hnode] at hcount
  exact hcount

theorem mem_iff (h : Stores g verts m) {i : Nat} (hi : (i : Int) < g.num) {x : Nat}
    (hnode : (g.list.cell i).node = process x) (y : Nat) :
    (x, y) ∈ m ↔ ∃ n ∈ (g.list.cell i).next, n.id = y := by
  rw [← Multiset.count_pos, h.count_eq hi hnode, List.count_pos_iff, List.mem_map]

theorem hasNode (h : Stores g verts m) {x : Nat} (hx : x ∈ verts) : HasNode g (process x) := by
  rcases (h.vertex x).mpr hx with ⟨i, hi, rfl⟩
  exact ⟨i, hi, h.node_eq hi⟩

/-- An edge leads to a thread that has a vertex. -/
theorem target (h : Stores g verts m) {e : Nat × Nat} (he : e ∈ m) : e.2 ∈ verts := by
  rcases (h.vertex e.1).mpr (h.source e he) with ⟨i, hi, hid⟩
  have hnode : (g.list.cell i).node = process e.1 := hid ▸ h.node_eq hi
  rcases (h.mem_iff hi hnode e.2).mp he with ⟨n, hn, hn2⟩
  rcases h.sound.target i hi n hn with ⟨j, hj, hjn⟩
  rw [← h.vertex, ← hn2, ← hjn]
  exact ⟨j, hj, rfl⟩

/-! ### The operations -/

/-- A thread gets a vertex without edges, if it has none. -/
theorem addVertex (h : Stores g verts m) {a : Nat} (hcard : (insert a verts).card ≤ MAX) :
    ∃ g', g.addVertex (process a) = some g' ∧ Stores g' (insert a verts) m := by
  have hnum := h.num_eq
  rcases h.search a with ⟨i, hsearch, -, -, -, ha⟩ | ⟨hsearch, ha⟩
  · refine ⟨g, ?_, ?_⟩
    · simp only [VertexList.addVertex, hsearch, Option.bind_eq_bind, Option.bind_some]
      rw [if_neg (by omega)]
      rfl
    · rw [Finset.insert_eq_of_mem ha]
      exact h
  · rw [Finset.card_insert_of_notMem ha] at hcard
    -- A thread that is not found is written behind the last vertex.
    have hadd : g.addVertex (process a) =
        some ⟨g.list.set verts.card ⟨process a, []⟩, g.num + 1⟩ := by
      rw [VertexList.addVertex, hsearch]
      change (g.list.write g.num ⟨process a, []⟩ >>= _) = _
      rw [hnum, CArray.write_of_lt g.list hcard]
      rfl
    refine ⟨_, hadd, (h.sound.addVertex hadd).1, fun i hi => ?_, fun x => ?_, fun i hi y => ?_,
      fun e he => Finset.mem_insert_of_mem (h.source e he)⟩
    · rcases cell_new hnum ⟨process a, []⟩ hi with ⟨-, hcell⟩ | ⟨hi, hcell⟩
      · exact congrArg (fun v => v.node.type) hcell
      · exact (congrArg (fun v => v.node.type) hcell).trans (h.type i hi)
    · rw [hasVertex_new hnum, h.vertex, Finset.mem_insert]
      exact or_comm
    · change m.count (((g.list.set verts.card ⟨process a, []⟩).cell i).node.id, y) =
        (((g.list.set verts.card ⟨process a, []⟩).cell i).next.map SourceNode.id).count y
      rcases cell_new hnum ⟨process a, []⟩ hi with ⟨-, hcell⟩ | ⟨hi, hcell⟩
      -- No edge of the thread can have been stored.
      · rw [hcell]
        exact Multiset.count_eq_zero.mpr (fun he => ha (h.source _ he))
      · rw [hcell]
        exact h.chain i hi y

/-- The chain of one vertex may change, as the edges of its thread do. -/
theorem set (h : Stores g verts m) {i a : Nat} (hi : (i : Int) < g.num)
    (hnode : (g.list.cell i).node = process a) (next : List SourceNode)
    {m' : Multiset (Nat × Nat)} (hnext : ∀ n ∈ next, HasNode g n)
    (hsame : ∀ x y, x ≠ a → m'.count (x, y) = m.count (x, y))
    (hchain : ∀ y, m'.count (a, y) = (next.map SourceNode.id).count y) :
    Stores ⟨g.list.set i ⟨(g.list.cell i).node, next⟩, g.num⟩ verts m' where
  sound := h.sound.set hnext i
  type := fun j hj => by
    rw [node_set]
    exact h.type j hj
  vertex := fun x => (hasVertex_set next x).trans (h.vertex x)
  chain := fun j hj y => by
    rw [node_set]
    by_cases hji : j = i
    · rw [hji, hnode, CArray.cell_set_self]
      exact hchain y
    · rw [CArray.cell_set_of_ne _ hji]
      -- Another vertex is of another thread.
      refine (hsame _ y (fun hid => hji ?_)).trans (h.chain j hj y)
      refine h.id_injective hj hi ?_
      rw [hid, hnode]
      rfl
  source := fun e he => by
    by_cases hea : e.1 = a
    · rw [hea, ← h.vertex]
      exact ⟨i, hi, congrArg SourceNode.id hnode⟩
    · refine h.source e (Multiset.count_pos.mp ?_)
      rw [← hsame e.1 e.2 hea]
      exact Multiset.count_pos.mpr he

/-- `add_edge` stores an edge. -/
theorem addEdge (h : Stores g verts m) {a b : Nat}
    (hcard : (verts ∪ {a, b}).card ≤ MAX) :
    ∃ g', g.addEdge (process a) (process b) = some g' ∧
      Stores g' (verts ∪ {a, b}) ((a, b) ::ₘ m) := by
  have hverts : verts ∪ {a, b} = insert b (insert a verts) := by
    ext x
    simp only [Finset.mem_union, Finset.mem_insert, Finset.mem_singleton]
    tauto
  -- Both vertices are there after the two calls of `add_vertex`.
  rw [hverts] at hcard ⊢
  rcases h.addVertex ((Finset.card_le_card (Finset.subset_insert b _)).trans hcard) with
    ⟨g₁, h₁, hs₁⟩
  rcases hs₁.addVertex hcard with ⟨g₂, h₂, hs₂⟩
  rcases hs₂.search a with ⟨i, hsearch, hi, hmax, hnode, -⟩ | ⟨-, ha⟩
  · refine ⟨_, ?_, hs₂.set hi hnode ((g₂.list.cell i).next ++ [process b])
      (fun n hn => ?_) (fun x y hx => ?_) (fun y => ?_)⟩
    · simp only [VertexList.addEdge, h₁, h₂, hsearch, CArray.read_of_lt g₂.list hmax,
        CArray.write_of_lt g₂.list hmax, Option.bind_eq_bind, Option.bind_some]
      rfl
    · rcases List.mem_append.mp hn with hn | hn
      · exact hs₂.sound.target i hi n hn
      · rw [List.mem_singleton.mp hn]
        exact hs₂.hasNode (Finset.mem_insert_self b _)
    · exact Multiset.count_cons_of_ne (fun heq => hx (congrArg Prod.fst heq)) m
    -- The node goes to the end of the chain, also when the edge is there already.
    · have hy : (a, y) = (a, b) ↔ (b == y) = true := by
        rw [Prod.mk_right_inj, beq_iff_eq, eq_comm]
      rw [List.map_append, List.count_append, ← hs₂.count_eq hi hnode, Multiset.count_cons]
      change _ + _ = _ + [b].count y
      rw [List.count_singleton]
      exact congrArg _ (if_congr hy rfl rfl)
  · exact absurd (Finset.mem_insert_of_mem (Finset.mem_insert_self a verts)) ha

/-- `remove_edge` takes out an edge, if there is one. -/
theorem removeEdge (h : Stores g verts m) (a b : Nat) :
    ∃ g', frees g (process a) (process b) = some (decide ((a, b) ∈ m)) ∧
      g.removeEdge (process a) (process b) = some g' ∧ Stores g' verts (m.erase (a, b)) := by
  have hnone (he : (a, b) ∉ m) : Stores g verts (m.erase (a, b)) := by
    rw [Multiset.erase_of_notMem he]
    exact h
  -- Both threads must have a vertex, otherwise the function returns at once.
  rcases h.search a with ⟨i, hi, hlt, hmax, hnode, ha⟩ | ⟨hi, ha⟩
  · rcases h.search b with ⟨j, hj, -, -, -, hb⟩ | ⟨hj, hb⟩
    · refine ⟨_, ?_, ?_, h.set hlt hnode
        ((g.list.cell i).next.eraseP (fun n => n.id == b)) (fun n hn => ?_)
        (fun x y hx => ?_) (fun y => ?_)⟩
      · simp only [frees, hi, hj, CArray.read_of_lt g.list hmax, Option.bind_eq_bind,
          Option.bind_some]
        rw [if_pos (by omega)]
        refine congrArg some ?_
        rw [Bool.eq_iff_iff, List.any_eq_true, decide_eq_true_eq, h.mem_iff hlt hnode]
        exact exists_congr (fun n => and_congr_right (fun _ => beq_iff_eq))
      · simp only [VertexList.removeEdge, hi, hj, CArray.read_of_lt g.list hmax,
          CArray.write_of_lt g.list hmax, Option.bind_eq_bind, Option.bind_some]
        rw [if_pos (by omega)]
        rfl
      · exact h.sound.target i hlt n (List.mem_of_mem_eraseP hn)
      · exact Multiset.count_erase_of_ne (fun heq => hx (congrArg Prod.fst heq)) m
      -- The first node of the thread is the one that goes.
      · have herase : ((g.list.cell i).next.eraseP (fun n => n.id == b)).map SourceNode.id =
            ((g.list.cell i).next.map SourceNode.id).erase b := by
          rw [List.erase_eq_eraseP', List.eraseP_map]
          rfl
        rw [herase]
        by_cases hy : y = b
        · rw [hy, Multiset.count_erase_self, List.count_erase_self, h.count_eq hlt hnode]
        · rw [Multiset.count_erase_of_ne (fun heq => hy (congrArg Prod.snd heq)),
            List.count_erase_of_ne hy, h.count_eq hlt hnode]
    · refine ⟨g, ?_, ?_, hnone (fun he => hb (h.target he))⟩
      -- Without a vertex of its target, the edge has not been stored.
      · have hno : (a, b) ∉ m := fun he => hb (h.target he)
        simp only [frees, hi, hj, Option.bind_eq_bind, Option.bind_some]
        rw [if_neg (fun hc => hc.2 rfl), decide_eq_false hno]
        rfl
      · simp only [VertexList.removeEdge, hi, hj, Option.bind_eq_bind, Option.bind_some]
        rw [if_neg (fun hc => hc.2 rfl)]
        rfl
  · have hno : (a, b) ∉ m := fun he => ha (h.source _ he)
    rcases h.search b with ⟨j, hj, -⟩ | ⟨hj, -⟩
    all_goals
      refine ⟨g, ?_, ?_, hnone hno⟩
      · simp only [frees, hi, hj, Option.bind_eq_bind, Option.bind_some]
        rw [if_neg (fun hc => hc.1 rfl), decide_eq_false hno]
        rfl
      · simp only [VertexList.removeEdge, hi, hj, Option.bind_eq_bind, Option.bind_some]
        rw [if_neg (fun hc => hc.1 rfl)]
        rfl

/-- `verify_edge` finds an edge that is stored, and a thread that has a vertex. -/
theorem verifyEdge (h : Stores g verts m) (i j : Nat) :
    ∃ r, g.verifyEdge (process i) (process j) = some r ∧
      (r = true ↔ i ∈ verts ∧ (i = j ∨ (i, j) ∈ m)) := by
  rw [VertexList.verifyEdge]
  by_cases hnum : g.num = 0
  · refine ⟨false, if_pos hnum, iff_of_false Bool.false_ne_true (fun hc => ?_)⟩
    rcases (h.vertex i).mpr hc.1 with ⟨k, hk, -⟩
    omega
  · rw [if_neg hnum]
    rcases h.search i with ⟨k, hk, hlt, hmax, hnode, hi⟩ | ⟨hk, hi⟩
    · refine ⟨((g.list.cell k).node :: (g.list.cell k).next).any (fun n => n.id == j), ?_, ?_⟩
      · simp only [hk, CArray.read_of_lt g.list hmax, Option.bind_eq_bind, Option.bind_some]
        rw [if_neg (by omega)]
        rfl
      -- The walk starts at the vertex itself.
      · rw [and_iff_right hi, List.any_cons, Bool.or_eq_true, beq_iff_eq, List.any_eq_true, hnode,
          h.mem_iff hlt hnode]
        exact or_congr Iff.rfl (exists_congr (fun n => and_congr_right (fun _ => beq_iff_eq)))
    · refine ⟨false, ?_, iff_of_false Bool.false_ne_true (fun hc => hi hc.1)⟩
      rw [hk]
      rfl

/-! ### Some calls -/

theorem call (h : Stores g verts m) (c : EdgeCall)
    (hcard : (verts ∪ {c.pair.1, c.pair.2}).card ≤ MAX) :
    ∃ g', DeadlockDetector.call g c = some (g', c.freed m) ∧
      Stores g' (verts ∪ c.vertices) (c.apply m) := by
  cases c with
  | addEdge src dst =>
      have hcard : (verts ∪ {src, dst}).card ≤ MAX := hcard
      rcases h.addEdge hcard with ⟨g', hadd, hstores⟩
      refine ⟨g', ?_, hstores⟩
      rw [DeadlockDetector.call, hadd]
      rfl
  | removeEdge src dst =>
      rcases h.removeEdge src dst with ⟨g', hfrees, hremove, hstores⟩
      refine ⟨g', ?_, ?_⟩
      · rw [DeadlockDetector.call, hfrees, hremove]
        refine congrArg (fun freed => some (g', freed)) (if_congr ?_ rfl rfl)
        exact decide_eq_true_iff
      · rw [EdgeCall.vertices, Finset.union_empty]
        exact hstores

/-- The calls leave the edges that they should leave, and each edge is there as often as it was
    added, less as often as it was taken out. -/
theorem run (calls : List EdgeCall) : ∀ {g : VertexList} {verts : Finset Nat}
    {m : Multiset (Nat × Nat)}, Stores g verts m → (verts ∪ ids calls).card ≤ MAX →
    ∃ g' freed, DeadlockDetector.run g calls = some (g', freed) ∧
      Stores g' (verts ∪ vertices calls) (calls.foldl EdgeCall.apply m) ∧
      ∀ a b, (calls.foldl EdgeCall.apply m).count (a, b) + freed.count (a, b) =
        m.count (a, b) + calls.count (.addEdge a b) := by
  induction calls with
  | nil =>
      intro g verts m h _
      refine ⟨g, [], rfl, ?_, fun a b => rfl⟩
      rw [vertices_nil, Finset.union_empty]
      exact h
  | cons c calls ih =>
      intro g verts m h hcard
      rw [ids_cons, ← Finset.union_assoc] at hcard
      have hfirst : verts ∪ {c.pair.1, c.pair.2} ⊆ verts ∪ {c.pair.1, c.pair.2} ∪ ids calls :=
        Finset.subset_union_left
      rcases h.call c ((Finset.card_le_card hfirst).trans hcard) with ⟨g₁, hcall, hstores⟩
      have hrest : verts ∪ c.vertices ∪ ids calls ⊆
          verts ∪ {c.pair.1, c.pair.2} ∪ ids calls :=
        Finset.union_subset_union_left (Finset.union_subset_union_right c.vertices_subset)
      rcases ih hstores ((Finset.card_le_card hrest).trans hcard) with
        ⟨g', freed, hrun, hstores', hcount⟩
      refine ⟨g', c.freed m ++ freed, ?_, ?_, fun a b => ?_⟩
      · rw [DeadlockDetector.run, hcall]
        change (DeadlockDetector.run g₁ calls >>= _) = _
        rw [hrun]
        rfl
      · rw [vertices_cons, ← Finset.union_assoc]
        exact hstores'
      · have hstep := c.count_apply m a b
        have hsum := hcount a b
        rw [List.foldl_cons, List.count_append, ← List.singleton_append, List.count_append]
        omega

end Stores

/-- The calls have a result, and an edge is stored if it was added more often than it was
    taken out. -/
theorem run_new (list : CArray Vertex MAX) {calls : List EdgeCall}
    (hcard : (ids calls).card ≤ MAX) :
    ∃ g freed, run ⟨list, 0⟩ calls = some (g, freed) ∧
      Stores g (vertices calls) (edges calls) ∧
      ∀ a b, (a, b) ∈ edges calls ↔ freed.count (a, b) < calls.count (.addEdge a b) := by
  rw [← Finset.empty_union (ids calls)] at hcard
  rcases (stores_new list).run calls hcard with ⟨g, freed, hrun, hstores, hcount⟩
  rw [Finset.empty_union] at hstores
  refine ⟨g, freed, hrun, hstores, fun a b => ?_⟩
  have hsum := hcount a b
  rw [Multiset.count_zero] at hsum
  rw [← Multiset.count_pos, edges]
  omega

/-! ### What the test answers -/

/-- After any calls, the answer for a pair is whether the edge was added more often than it was
    taken out, unless it is of a thread and itself that has a vertex but no such edge. And a
    call for another pair leaves the answer as it was, unless it gives that thread its vertex. -/
theorem edgeStore_iff (list : CArray Vertex MAX) (calls : List EdgeCall)
    (hcard : (ids calls).card ≤ MAX) (i j : Nat) :
    ∃ g freed r, run ⟨list, 0⟩ calls = some (g, freed) ∧
      g.verifyEdge (process i) (process j) = some r ∧
      ((r = true ↔ freed.count (i, j) < calls.count (.addEdge i j)) ↔
        i ≠ j ∨ i ∉ vertices calls ∨ (i, i) ∈ edges calls) ∧
      ∀ c : EdgeCall, c.pair ≠ (i, j) → (ids (calls ++ [c])).card ≤ MAX →
        ∃ g' freed' r', run ⟨list, 0⟩ (calls ++ [c]) = some (g', freed') ∧
          g'.verifyEdge (process i) (process j) = some r' ∧
          (r' = r ↔ i ≠ j ∨ i ∈ vertices calls ∨ i ∉ c.vertices) := by
  rcases run_new list hcard with ⟨g, freed, hrun, hstores, hmem⟩
  rcases hstores.verifyEdge i j with ⟨r, hr, hanswer⟩
  have hsource : (i, j) ∈ edges calls → i ∈ vertices calls := hstores.source (i, j)
  refine ⟨g, freed, r, hrun, hr, ?_, fun c hc hcard' => ?_⟩
  -- `verify_edge` answers that a thread has an edge to itself, stored or not, if
  -- it has a vertex.
  · rw [hanswer, ← hmem]
    by_cases hij : i = j
    · subst hij
      rw [and_iff_left (.inl rfl), or_iff_right (not_not_intro rfl)]
      constructor
      · intro hright
        exact (Decidable.em (i ∈ vertices calls)).symm.imp_right hright.mp
      · rintro (hnone | hedge)
        · exact iff_of_false hnone (fun hedge => hnone (hsource hedge))
        · exact iff_of_true (hsource hedge) hedge
    · refine iff_of_true ⟨fun h => h.2.resolve_left hij, fun h => ?_⟩ (.inl hij)
      exact ⟨hsource h, .inr h⟩
  · rcases run_new list hcard' with ⟨g', freed', hrun', hstores', -⟩
    rcases hstores'.verifyEdge i j with ⟨r', hr', hanswer'⟩
    refine ⟨g', freed', r', hrun', hr', ?_⟩
    -- A call about another pair leaves the edge, but may bring the vertex.
    rw [vertices_concat, edges_concat, Finset.mem_union, EdgeCall.mem_apply _ hc] at hanswer'
    rw [Bool.eq_iff_iff, hanswer, hanswer']
    by_cases hij : i = j
    · subst hij
      rw [and_iff_left (.inl rfl), and_iff_left (.inl rfl), or_iff_right (not_not_intro rfl),
        or_iff_left_iff_imp]
      exact imp_iff_or_not
    · refine iff_of_true (and_congr_left (fun h => or_iff_left_of_imp (fun _ => ?_))) (.inl hij)
      exact hsource (h.resolve_left hij)

/-- Two threads, of which the one waits for the other. -/
theorem edgeStore_waits : ∃ g freed, run ⟨⟨fun _ => ⟨process 0, []⟩⟩, 0⟩ [.addEdge 1 2] =
    some (g, freed) ∧ g.verifyEdge (process 1) (process 2) = some true := by
  rcases edgeStore_iff ⟨fun _ => ⟨process 0, []⟩⟩ [.addEdge 1 2] (by decide) 1 2 with
    ⟨g, freed, r, hrun, hr, hiff, -⟩
  refine ⟨g, freed, hrun, ?_⟩
  cases hrun
  rw [hr, (hiff.mpr (by decide)).mpr (by decide)]

/-- An edge from the first thread to the second one, and the test finds one from the first
    thread to itself, which it did not before. -/
theorem verifyEdge_itself : ∃ g, run ⟨⟨fun _ => ⟨process 0, []⟩⟩, 0⟩ [.addEdge 1 2] =
    some (g, []) ∧ g.verifyEdge (process 1) (process 1) = some true ∧
    [EdgeCall.addEdge 1 2].count (.addEdge 1 1) = 0 ∧
    VertexList.verifyEdge ⟨⟨fun _ => ⟨process 0, []⟩⟩, 0⟩ (process 1) (process 1) = some false := by
  exact ⟨_, rfl, rfl, rfl, rfl⟩

end DeadlockDetector

end BlogSample
