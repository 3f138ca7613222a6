import BlogSample.GraphSample.Program
import BlogSample.Theory.BreadthFirst
import BlogSample.Theory.DepthFirstOrder

/-!
# What the Scans Write

Both scans of a graph whose edges end at vertices. Each marks a vertex when it
first comes to it, so the dictionary holds what has been written and, for the
breadth-first scan, what is in the queue. Every call and every round lists one
vertex more, so there are no more of them than there are vertices.

## Main definitions

* `Closed`: The edges end at vertices.
* `left`: How many vertices are not listed yet.
* `Follows`, `BfsInv`: What the calls and the rounds do.

## Theorems

* `dfsScan_follows`, `dfs_lists`: A call follows the search.
* `dfs_correct`: The depth-first scan.
* `dequeue_found`, `bfs_found`: A round and the loop follow the search.
* `bfs_correct`: The breadth-first scan.
-/

namespace BlogSample

namespace GraphSample

open DotNet Fuel DepthFirst

/-- Both ends of each edge were inserted as vertices. -/
def Closed (calls : List Insertion) : Prop :=
  ∀ v w, .insertEdge v w ∈ calls → .insertVertex v ∈ calls ∧ .insertVertex w ∈ calls

theorem Closed.targets {calls : List Insertion} (h : Closed calls) {v w : Name}
    (hw : w ∈ targets calls v) : .insertVertex w ∈ calls :=
  (h v w (mem_targets.mp hw)).2

/-- The calls in `Main`. -/
def mainCalls : List Insertion :=
  [.insertVertex (some "A"), .insertVertex (some "B"), .insertVertex (some "C"),
    .insertVertex (some "D"), .insertEdge (some "A") (some "B"), .insertEdge (some "A") (some "C"),
    .insertEdge (some "B") (some "C"), .insertEdge (some "C") (some "A"),
    .insertEdge (some "C") (some "D"), .insertEdge (some "D") (some "D")]

theorem closed_main : Closed mainCalls := by
  intro v w h
  have hends : ∀ c ∈ mainCalls, ∀ v w, c = .insertEdge v w →
      .insertVertex v ∈ mainCalls ∧ .insertVertex w ∈ mainCalls := by
    simp [mainCalls]
  exact hends _ h v w rfl

/-- The vertices that were inserted. -/
def vertices (calls : List Insertion) : Finset Name :=
  (calls.filterMap (fun
    | .insertVertex vertex => some vertex
    | .insertEdge _ _ => none)).toFinset

theorem mem_vertices {calls : List Insertion} {v : Name} :
    v ∈ vertices calls ↔ .insertVertex v ∈ calls := by
  unfold vertices
  rw [List.mem_toFinset, List.mem_filterMap]
  constructor
  · rintro ⟨c, hc, heq⟩
    cases c with
    | insertVertex u =>
        rw [← Option.some.inj heq]
        exact hc
    | insertEdge gFrom gTo => cases heq
  · exact fun h => ⟨_, h, rfl⟩

/-- How many vertices are not listed yet. -/
def left (calls : List Insertion) (out : List Name) : ℕ :=
  (vertices calls \ out.toFinset).card

theorem left_append_le (calls : List Insertion) (out new : List Name) :
    left calls (out ++ new) ≤ left calls out := by
  refine Finset.card_le_card (Finset.sdiff_subset_sdiff (Finset.Subset.refl _) ?_)
  rw [List.toFinset_append]
  exact Finset.subset_union_left

theorem left_concat_lt {calls : List Insertion} {out : List Name} {v : Name}
    (hv : .insertVertex v ∈ calls) (hnew : v ∉ out) : left calls (out ++ [v]) < left calls out := by
  refine Finset.card_lt_card ((Finset.ssubset_iff_of_subset (fun u hu => ?_)).mpr ⟨v, ?_, ?_⟩)
  · rw [Finset.mem_sdiff, List.mem_toFinset] at hu ⊢
    exact ⟨hu.1, fun h => hu.2 (List.mem_append_left _ h)⟩
  · rw [Finset.mem_sdiff, List.mem_toFinset]
    exact ⟨mem_vertices.mpr hv, hnew⟩
  · rw [Finset.mem_sdiff, List.mem_toFinset]
    exact fun h => h.2 (List.mem_append_right _ List.mem_cons_self)

variable {calls : List Insertion} {g : Graph}

/-! ### The depth-first scan -/

/-- A call for a new vertex lists what the search from it does, if there is fuel for the
    vertices that are left. Whether the vertex itself is marked does not matter. -/
def Follows (calls : List Insertion) (fuel : ℕ) (scan : Name → DfsState → Call Exn DfsState) :
    Prop :=
  ∀ v s marked, .insertVertex v ∈ calls → v ∉ s.lines → left calls s.lines ≤ fuel →
    Marks calls s.visited marked → (∀ u, u ≠ v → (u ∈ marked ↔ u ∈ s.lines)) →
    ∃ t, Returns (scan v s) t ∧ Marks calls t.visited t.lines ∧
      DepthFirstOrder.Lists (targets calls) [v] s.lines t.lines

/-- The loop over the nodes of a vertex follows the search if the calls in it do. -/
theorem Follows.foldlM {fuel : ℕ} {scan : Name → DfsState → Call Exn DfsState}
    (hscan : Follows calls fuel scan) {L : List Name} (hL : ∀ w ∈ L, .insertVertex w ∈ calls)
    {s : DfsState} (hs : Marks calls s.visited s.lines) (hleft : left calls s.lines ≤ fuel) :
    ∃ t, Returns (L.foldlM (visitNew scan) s) t ∧ Marks calls t.visited t.lines ∧
      DepthFirstOrder.Lists (targets calls) L s.lines t.lines := by
  induction L generalizing s with
  | nil => exact ⟨s, .pure s, hs, .nil s.lines⟩
  | cons w L ih =>
      rcases List.forall_mem_cons.mp hL with ⟨hw, hL⟩
      by_cases hseen : w ∈ s.lines
      -- The node is passed over.
      · have hvisit : Returns (visitNew scan s w) s := by
          refine (Returns.lift (hs w hw)).bind ?_
          rw [if_pos (decide_eq_true hseen)]
          exact .pure s
        rcases ih hL hs hleft with ⟨t, ht, hmarks, hlists⟩
        exact ⟨t, hvisit.foldlM_cons ht, hmarks, .seen w L s.lines t.lines hseen hlists⟩
      -- The node is marked before the call for it lists it.
      · have hmarked (u : Name) : u ∈ s.lines ++ [w] ↔ u ∈ s.lines ∨ u = w := by
          rw [List.mem_append, List.mem_singleton]
        rcases hs.assign hw hmarked with ⟨visited, hassign, hvisited⟩
        rcases hscan w { s with visited } _ hw hseen hleft hvisited
          (fun u hu => (hmarked u).trans (or_iff_left hu)) with ⟨t, ht, hmarks, hlists⟩
        have hvisit : Returns (visitNew scan s w) t := by
          refine (Returns.lift (hs w hw)).bind ?_
          rw [if_neg (by rwa [decide_eq_true_eq])]
          exact (Returns.lift hassign).bind ht
        -- The lines only grow, so there is no more left than before.
        have hleft' : left calls t.lines ≤ fuel := by
          rcases hlists.spec with ⟨new, hnew⟩
          rw [hnew.eq]
          exact (left_append_le calls s.lines new).trans hleft
        rcases ih hL hmarks hleft' with ⟨t', ht', hmarks', hlists'⟩
        refine ⟨t', hvisit.foldlM_cons ht', hmarks', ?_⟩
        cases hlists with
        | seen _ _ _ _ hin => exact absurd hin hseen
        | new _ _ _ mid _ _ hbelow hnil =>
            cases hnil
            exact .new w L s.lines t.lines t'.lines hseen hbelow hlists'

/-- Each call lists a vertex, so there is fuel left for the calls in it. -/
theorem dfsScan_follows (hg : Built calls g) (hclosed : Closed calls) (fuel : ℕ) :
    Follows calls fuel (dfsScan g fuel) := by
  induction fuel with
  | zero =>
      -- The vertex itself is left, so that there is some fuel.
      intro v s marked hv hnew hleft
      exact absurd (left_concat_lt hv hnew) (by omega)
  | succ fuel ih =>
      intro v s marked hv hnew hleft hmarks hmarked
      -- The caller has marked the vertex before, except at the start.
      have hin (u : Name) : u ∈ s.lines ++ [v] ↔ u ∈ marked ∨ u = v := by
        rw [List.mem_append, List.mem_singleton]
        by_cases hu : u = v
        · exact iff_of_true (.inr hu) (.inr hu)
        · rw [hmarked u hu]
      rcases hmarks.assign hv hin with ⟨visited, hassign, hvisited⟩
      have hlt := left_concat_lt hv hnew
      rcases ih.foldlM (s := { visited, lines := s.lines ++ [v] })
        (fun w hw => hclosed.targets hw) hvisited (Nat.le_of_lt_succ (hlt.trans_le hleft)) with
        ⟨t, ht, hmarks', hlists⟩
      refine ⟨t, ?_, hmarks', .new v [] s.lines t.lines t.lines hnew hlists (.nil t.lines)⟩
      rw [dfsScan]
      refine (Returns.lift (hg.getVertexNode_eq_ok_iff.mpr ⟨hv, rfl⟩)).bind ?_
      exact (Returns.lift hassign).bind ht

/-- The depth-first scan lists what the search from the vertex does. -/
theorem dfs_lists (hg : Built calls g) (hclosed : Closed calls) {v : Name}
    (hv : .insertVertex v ∈ calls) :
    ∃ out, Terminates (dfs g v) out ∧ DepthFirstOrder.Lists (targets calls) [v] [] out := by
  have hscan (fuel : ℕ) (hfuel : left calls [] ≤ fuel) : ∃ out, Returns (dfs g v fuel) out ∧
      DepthFirstOrder.Lists (targets calls) [v] [] out := by
    rcases dfsScan_follows hg hclosed fuel v { visited := g.unvisited, lines := [] } [] hv
      List.not_mem_nil hfuel (marks_unvisited hg) (fun u _ => Iff.rfl) with ⟨t, ht, -, hlists⟩
    exact ⟨t.lines, ht.bind (.pure t.lines), hlists⟩
  -- More fuel does not change the lines, as the search lists one thing only.
  rcases hscan _ (Nat.le_refl _) with ⟨out, -, hlists⟩
  refine ⟨out, ⟨left calls [], fun fuel hfuel => ?_⟩, hlists⟩
  rcases hscan fuel (Nat.le_of_lt hfuel) with ⟨out', hret, hlists'⟩
  rw [hlists.unique hlists']
  exact hret

/-- The depth-first scan of a graph whose edges end at vertices writes each vertex that can be
    reached once, in depth-first preorder. -/
theorem dfs_correct (hbuild : build calls = .ok g) (hclosed : Closed calls) {v : Name}
    (hv : .insertVertex v ∈ calls) :
    ∃ out, Terminates (dfs g v) out ∧ out.Nodup ∧ (∀ w, w ∈ out ↔ Reach (targets calls) v w) ∧
      DepthFirstOrder.Ordered (targets calls) v out := by
  rcases dfs_lists (built_build hbuild) hclosed hv with ⟨out, hret, hlists⟩
  exact ⟨out, hret, hlists.of_start⟩

/-- The graph of `Main` from `B`. -/
theorem dfs_correct_main : ∃ g, build mainCalls = .ok g ∧ ∃ out, Terminates (dfs g (some "B")) out ∧
    out.Nodup ∧ (∀ w, w ∈ out ↔ Reach (targets mainCalls) (some "B") w) ∧
    DepthFirstOrder.Ordered (targets mainCalls) (some "B") out :=
  ⟨_, rfl, dfs_correct rfl closed_main (by decide)⟩

/-! ### The breadth-first scan -/

/-- The loop over the nodes of a vertex queues those that are not marked yet, once each. -/
theorem foldlM_enqueueNew {ws : List Name} (hws : ∀ w ∈ ws, .insertVertex w ∈ calls)
    {visited : Dictionary String Bool} {seen : List Name} (h : Marks calls visited seen)
    (queue : List Name) :
    ∃ visited', ws.foldlM enqueueNew (visited, queue) =
        .ok (visited', queue ++ BreadthFirst.fresh seen ws) ∧
      Marks calls visited' (seen ++ BreadthFirst.fresh seen ws) := by
  induction ws generalizing visited seen queue with
  | nil =>
      refine ⟨visited, ?_, ?_⟩
      · rw [BreadthFirst.fresh, List.append_nil]
        rfl
      · rwa [BreadthFirst.fresh, List.append_nil]
  | cons w ws ih =>
      rcases List.forall_mem_cons.mp hws with ⟨hw, hws⟩
      rw [BreadthFirst.fresh]
      by_cases hseen : w ∈ seen
      -- A vertex that is marked is marked once more, which changes nothing.
      · have hmarked (u : Name) : u ∈ seen ↔ u ∈ seen ∨ u = w := by
          refine (or_iff_left_of_imp (fun hu => ?_)).symm
          rwa [hu]
        rcases h.assign hw hmarked with ⟨visited', hassign, hvisited⟩
        have henqueue : enqueueNew (visited, queue) w = .ok (visited', queue) := by
          unfold enqueueNew
          rw [h w hw, decide_eq_true hseen, hassign]
          rfl
        rw [if_pos hseen, foldlM_cons_ok henqueue]
        exact ih hws hvisited queue
      -- A vertex that is new is marked and joins the queue.
      · have hmarked (u : Name) : u ∈ seen ++ [w] ↔ u ∈ seen ∨ u = w := by
          rw [List.mem_append, List.mem_singleton]
        rcases h.assign hw hmarked with ⟨visited', hassign, hvisited⟩
        have henqueue : enqueueNew (visited, queue) w = .ok (visited', queue ++ [w]) := by
          unfold enqueueNew
          rw [h w hw, decide_eq_false hseen, hassign]
          rfl
        rw [if_neg hseen, foldlM_cons_ok henqueue]
        simpa only [List.append_assoc, List.cons_append, List.nil_append] using
          ih hws hvisited (queue ++ [w])

/-- What has been written and what is in the queue are the search so far. -/
structure BfsInv (calls : List Insertion) (v : Name) (s : BfsState) : Prop where
  marks : Marks calls s.visited (s.lines ++ s.queue)
  found : BreadthFirst.Found (targets calls) v s.lines s.queue

theorem inserted_of_reach (hclosed : Closed calls) {v w : Name} (hv : .insertVertex v ∈ calls)
    (h : Reach (targets calls) v w) : .insertVertex w ∈ calls := by
  induction h with
  | refl => exact hv
  | tail _ hw _ => exact hclosed.targets hw

/-- A round takes the vertex at the head of the queue and writes it. -/
theorem dequeue_found (hg : Built calls g) (hclosed : Closed calls) {v : Name}
    (hv : .insertVertex v ∈ calls) {s : BfsState} (hs : BfsInv calls v s) (hne : s.queue ≠ []) :
    ∃ t, dequeue g s = .ok t ∧ BfsInv calls v t ∧ left calls t.lines < left calls s.lines := by
  rcases s with ⟨visited, queue, lines⟩
  rcases List.exists_cons_of_ne_nil hne with ⟨vtx, queue', rfl⟩
  rcases hs with ⟨hmarks, hfound⟩
  have hin : .insertVertex vtx ∈ calls := inserted_of_reach hclosed hv
    (hfound.reach vtx (List.mem_append_right _ List.mem_cons_self))
  -- No vertex is found twice, so the one in the queue is not written yet.
  have hnew : vtx ∉ lines := fun hmem =>
    (List.nodup_append.mp hfound.nodup).2.2 vtx hmem vtx List.mem_cons_self rfl
  have hws : ∀ w ∈ targets calls vtx, .insertVertex w ∈ calls := fun w hw => hclosed.targets hw
  rcases foldlM_enqueueNew hws hmarks queue' with
    ⟨visited', hloop, hmarks'⟩
  refine ⟨{ visited := visited', queue := _, lines := lines ++ [vtx] }, ?_, ⟨?_, hfound.step⟩,
    left_concat_lt hin hnew⟩
  -- The vertex is one that was inserted, and so has a list.
  · change (g.getVertexNode vtx >>= _) = _
    rw [hg.getVertexNode_eq_ok_iff.mpr ⟨hin, rfl⟩]
    change ((targets calls vtx).foldlM enqueueNew (visited, queue') >>= _) = _
    rw [hloop]
    rfl
  · simpa using hmarks'

/-- The breadth-first scan ends with an empty queue. -/
theorem bfs_found (hg : Built calls g) (hclosed : Closed calls) {v : Name}
    (hv : .insertVertex v ∈ calls) :
    ∃ out, Terminates (bfs g v) out ∧ BreadthFirst.Found (targets calls) v out [] := by
  rcases (marks_unvisited hg).assign hv (fun u => by
    rw [List.mem_singleton, or_iff_right List.not_mem_nil]) with ⟨visited, hassign, hvisited⟩
  have hstart : BfsInv calls v { visited, queue := [v], lines := [] } :=
    ⟨hvisited, BreadthFirst.found_start (targets calls) v⟩
  have hround (s : BfsState) (hs : BfsInv calls v s) (hcond : (!s.queue.isEmpty) = true) :
      ∃ t, Returns (liftM (dequeue g s) : Call Exn BfsState) t ∧ BfsInv calls v t ∧
        left calls t.lines < left calls s.lines := by
    have hne : s.queue ≠ [] := fun hnil => by simp [hnil] at hcond
    rcases dequeue_found hg hclosed hv hs hne with ⟨t, ht, hinv, hlt⟩
    exact ⟨t, .lift ht, hinv, hlt⟩
  rcases whileLoop_returns (BfsInv calls v) (fun s => left calls s.lines) hround hstart with
    ⟨t, ht, hend, hloop⟩
  have hempty : t.queue = [] := by simpa using hend
  refine ⟨t.lines, ⟨left calls [], fun fuel hfuel => ?_⟩, hempty ▸ ht.found⟩
  exact (Returns.lift hassign).bind ((hloop fuel hfuel).bind (.pure t.lines))

/-- The breadth-first scan of a graph whose edges end at vertices writes each vertex that can be
    reached once, in order of the distance from the start. -/
theorem bfs_correct (hbuild : build calls = .ok g) (hclosed : Closed calls) {v : Name}
    (hv : .insertVertex v ∈ calls) :
    ∃ out, Terminates (bfs g v) out ∧ out.Nodup ∧ (∀ w, w ∈ out ↔ Reach (targets calls) v w) ∧
      out.Pairwise (fun u w => BreadthFirst.distance (targets calls) v u ≤
        BreadthFirst.distance (targets calls) v w) := by
  rcases bfs_found (built_build hbuild) hclosed hv with ⟨out, hret, hfound⟩
  refine ⟨out, hret, ?_, fun w => hfound.mem_iff, ?_⟩
  · simpa using hfound.nodup
  · simpa using hfound.sorted

/-- The graph of `Main` from `C`. -/
theorem bfs_correct_main : ∃ g, build mainCalls = .ok g ∧ ∃ out, Terminates (bfs g (some "C")) out ∧
    out.Nodup ∧ (∀ w, w ∈ out ↔ Reach (targets mainCalls) (some "C") w) ∧
    out.Pairwise (fun u w => BreadthFirst.distance (targets mainCalls) (some "C") u ≤
      BreadthFirst.distance (targets mainCalls) (some "C") w) :=
  ⟨_, rfl, bfs_correct rfl closed_main (by decide)⟩

end GraphSample

end BlogSample
