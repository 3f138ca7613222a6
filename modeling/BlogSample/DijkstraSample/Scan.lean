import BlogSample.DijkstraSample.Program
import BlogSample.Theory.BreadthFirst

/-!
# The Breadth-First Scan of Named Nodes

`BFS(map)`. A node is known by its key in the map, whatever name it carries
itself, since the queue holds what the map has for a name. Nothing checks that
a name is a key or that a node has a list, so the scan may throw, and what it
has written by then stays written.

## Main definitions

* `BfsState`: The variables of the scan, and what has been written.
* `visit`, `dequeueNode`, `bfs`: The scan.
* `nexts`: The names that a node leads to.
* `Complete`: Every node that can be reached is there and has a list.
* `Listed`: Lines in the order of the search.
* `Stuck`: What makes the scan throw.
* `Scanned`: What the rounds keep.

## Theorems

* `foldlM_visit`: The loop over the list of a node.
* `dequeueNode_scanned`: A node is taken from the queue.
* `bfs_ends`: The scan writes what can be reached, or stops where the map has a gap.
-/

namespace BlogSample

namespace DijkstraSample

open DotNet DepthFirst

/-- The variables of the scan, and what has been written. -/
structure BfsState where
  q : List TreeNode
  isVisited : Finset String
  lines : List String

/-- The body of the loop over `cur.next`. An exception leaves what has been written. -/
def visit (map : Dictionary String TreeNode) (s : BfsState) (n : TreeNode) :
    Except (Exn × List String) BfsState :=
  if n.name ∈ s.isVisited then pure s
  else
    match map.item n.name with
    | .error e => throw (e, s.lines)
    | .ok node =>
        pure
          { isVisited := insert n.name s.isVisited
            q := s.q ++ [node]
            lines := s.lines ++ [n.name] }

/-- The body of the loop over `i`. -/
def dequeueNode (map : Dictionary String TreeNode) (s : BfsState) :
    Except (Exn × List String) BfsState :=
  match s.q with
  | [] => throw (.invalidOperation, s.lines)
  | cur :: q =>
      match cur.next with
      | none => throw (.nullReference, s.lines)
      | some next => next.foldlM (visit map) { s with q := q }

/-- `BFS(map)`. -/
def bfs (fuel : Nat) (map : Dictionary String TreeNode) :
    Except (Exn × List String) (Option (List String)) :=
  match map.item "A" with
  | .error e => throw (e, [])
  | .ok node => do
      let t ← Rounds.whileLoop (fun s => s.q.length) (dequeueNode map) fuel
        { q := [node], isVisited := {"A"}, lines := [] }
      pure (t.map BfsState.lines)

/-- The names in the list of a node. -/
def TreeNode.names (node : TreeNode) : List String :=
  (node.next.getD []).map TreeNode.name

/-- The names that a node leads to. -/
def nexts (map : Dictionary String TreeNode) (v : String) : List String :=
  ((map.tryGetValue v).map TreeNode.names).getD []

/-- Every node that can be reached is in the map and has a list. -/
def Complete (map : Dictionary String TreeNode) : Prop :=
  ∀ v, Reach (nexts map) "A" v → ∃ node, map.tryGetValue v = some node ∧ node.next ≠ none

/-- Nothing is written twice, the start is not written, and what is written can be reached
    and is in order of its distance. -/
structure Listed (map : Dictionary String TreeNode) (lines : List String) : Prop where
  nodup : ("A" :: lines).Nodup
  reach : ∀ v ∈ lines, Reach (nexts map) "A" v
  sorted : lines.Pairwise (fun v w =>
    BreadthFirst.distance (nexts map) "A" v ≤ BreadthFirst.distance (nexts map) "A" w)

/-- A name that can be reached is not a key, or its node has no list. -/
def Stuck (map : Dictionary String TreeNode) (e : Exn) : Prop :=
  ∃ v, Reach (nexts map) "A" v ∧ (e = .keyNotFound ∧ map.tryGetValue v = none ∨
    e = .nullReference ∧ ∃ node, map.tryGetValue v = some node ∧ node.next = none)

variable {map : Dictionary String TreeNode}

theorem Stuck.not_complete {e : Exn} (h : Stuck map e) : ¬Complete map := by
  intro hcomplete
  rcases h with ⟨v, hv, ⟨-, hnone⟩ | ⟨-, node, hnode, hnone⟩⟩
  · rcases hcomplete v hv with ⟨node, hnode, -⟩
    rw [hnone] at hnode
    cases hnode
  · rcases hcomplete v hv with ⟨node', hnode', hsome⟩
    rw [hnode] at hnode'
    cases hnode'
    exact hsome hnone

theorem item_of_some {v : String} {node : TreeNode} (h : map.tryGetValue v = some node) :
    map.item v = .ok node :=
  (map.item_eq_ok_iff v node).mpr ((map.tryGetValue_eq_some_iff v node).mp h)

theorem item_of_none {v : String} (h : map.tryGetValue v = none) :
    map.item v = .error .keyNotFound := by
  unfold Dictionary.item
  rw [show map.entries.lookup v = none from h]
  rfl

theorem nexts_of_some {v : String} {node : TreeNode} (h : map.tryGetValue v = some node) :
    nexts map v = node.names := by
  rw [nexts, h]
  rfl

/-! ### The loop over the list of a node -/

/-- The names that are new are written and their nodes queued, up to one that is not a key. -/
theorem foldlM_visit (next : List TreeNode) {s : BfsState} {seen : List String}
    (hvisited : ∀ v, v ∈ s.isVisited ↔ v ∈ seen) (hlines : "A" :: s.lines = seen) :
    (∃ t nodes, next.foldlM (visit map) s = .ok t ∧ t.q = s.q ++ nodes ∧
      nodes.map some =
        (BreadthFirst.fresh seen (next.map TreeNode.name)).map map.tryGetValue ∧
      (∀ v, v ∈ t.isVisited ↔ v ∈ seen ++ BreadthFirst.fresh seen (next.map TreeNode.name)) ∧
      "A" :: t.lines = seen ++ BreadthFirst.fresh seen (next.map TreeNode.name)) ∨
    ∃ lines, next.foldlM (visit map) s = .error (.keyNotFound, lines) ∧
      (∃ v ∈ next.map TreeNode.name, map.tryGetValue v = none) ∧
      "A" :: lines <+: seen ++ BreadthFirst.fresh seen (next.map TreeNode.name) := by
  induction next generalizing s seen with
  | nil =>
      refine .inl ⟨s, [], rfl, (List.append_nil _).symm, rfl, fun v => ?_, ?_⟩
      · rw [hvisited, List.map_nil, BreadthFirst.fresh, List.append_nil]
      · rw [hlines, List.map_nil, BreadthFirst.fresh, List.append_nil]
  | cons n next ih =>
      have hunfold : (n :: next).foldlM (visit map) s =
          visit map s n >>= fun t => next.foldlM (visit map) t := List.foldlM_cons
      rw [hunfold, List.map_cons, BreadthFirst.fresh]
      by_cases hseen : n.name ∈ seen
      -- The name is passed over.
      · have hvisit : visit map s n = .ok s := by
          rw [visit, if_pos ((hvisited _).mpr hseen)]
          rfl
        rw [hvisit, if_pos hseen]
        rcases ih hvisited hlines with h | ⟨lines, hrun, ⟨v, hv, hnone⟩, hbegin⟩
        · exact .inl h
        · exact .inr ⟨lines, hrun, ⟨v, List.mem_cons_of_mem _ hv, hnone⟩, hbegin⟩
      · rw [if_neg hseen]
        have hnew : n.name ∉ s.isVisited := fun h => hseen ((hvisited _).mp h)
        cases hnode : map.tryGetValue n.name with
        -- `map[next.name]` throws, with the lines printed so far.
        | none =>
            have hvisit : visit map s n = .error (.keyNotFound, s.lines) := by
              rw [visit, if_neg hnew, item_of_none hnode]
              rfl
            rw [hvisit]
            refine .inr ⟨s.lines, rfl, ⟨_, List.mem_cons_self, hnode⟩, ?_⟩
            rw [hlines]
            exact List.prefix_append _ _
        -- The node joins the queue and its name the output.
        | some node =>
            have hvisit : visit map s n =
                .ok ⟨s.q ++ [node], insert n.name s.isVisited, s.lines ++ [n.name]⟩ := by
              rw [visit, if_neg hnew, item_of_some hnode]
              rfl
            have hvisited' (v : String) :
                v ∈ insert n.name s.isVisited ↔ v ∈ seen ++ [n.name] := by
              rw [Finset.mem_insert, hvisited, List.mem_append, List.mem_singleton, or_comm]
            have hlines' : "A" :: (s.lines ++ [n.name]) = seen ++ [n.name] := by
              rw [← hlines]
              rfl
            rw [hvisit, List.append_cons seen n.name (BreadthFirst.fresh _ _)]
            rcases @ih ⟨s.q ++ [node], insert n.name s.isVisited, s.lines ++ [n.name]⟩
                (seen ++ [n.name]) hvisited' hlines' with
              ⟨t, nodes, hrun, hq, hnodes, hmem, hout⟩ | ⟨lines, hrun, ⟨v, hv, hnone⟩, hbegin⟩
            · refine .inl ⟨t, node :: nodes, hrun, ?_, ?_, hmem, hout⟩
              · rw [hq, List.append_assoc, List.singleton_append]
              · rw [List.map_cons, List.map_cons, hnodes, hnode]
            · exact .inr ⟨lines, hrun, ⟨v, List.mem_cons_of_mem _ hv, hnone⟩, hbegin⟩

/-! ### The rounds -/

/-- The start and the lines are what is done and what is queued, and the nodes of the former
    had lists. -/
structure Scanned (map : Dictionary String TreeNode) (s : BfsState) (done queue : List String) :
    Prop where
  found : BreadthFirst.Found (nexts map) "A" done queue
  nodes : s.q.map some = queue.map map.tryGetValue
  visited : ∀ v, v ∈ s.isVisited ↔ v ∈ done ++ queue
  lines : "A" :: s.lines = done ++ queue
  listed : ∀ v ∈ done, ∃ node, map.tryGetValue v = some node ∧ node.next ≠ none

/-- Lines that are the beginning of a search. -/
theorem listed_of_begin {done queue lines : List String}
    (h : BreadthFirst.Found (nexts map) "A" done queue) (hbegin : "A" :: lines <+: done ++ queue) :
    Listed map lines where
  nodup := h.nodup.sublist hbegin.sublist
  reach := fun v hv => h.reach v (hbegin.subset (List.mem_cons_of_mem _ hv))
  sorted := (List.pairwise_cons.mp (h.sorted.sublist hbegin.sublist)).2

/-- A node is taken from the queue, or the scan is stuck at it. -/
theorem dequeueNode_scanned {s : BfsState} {done queue : List String}
    (h : Scanned map s done queue) (hpos : 0 < s.q.length) :
    (∃ t v queue', dequeueNode map s = .ok t ∧ Scanned map t (done ++ [v]) queue' ∧
      s.q.length ≤ t.q.length + 1) ∨
    ∃ e lines, dequeueNode map s = .error (e, lines) ∧ Stuck map e ∧ Listed map lines := by
  rcases s with ⟨q, isVisited, lines⟩
  cases q with
  | nil => exact absurd hpos (Nat.lt_irrefl 0)
  | cons cur q =>
      cases queue with
      | nil => cases h.nodes
      | cons v queue =>
          rcases List.cons.inj h.nodes with ⟨hcur, hnodes⟩
          have hv := h.found.reach v (List.mem_append_right _ List.mem_cons_self)
          cases hnext : cur.next with
          -- `foreach` over a null list throws.
          | none =>
              refine .inr ⟨.nullReference, lines, ?_, ⟨v, hv, .inr ⟨rfl, cur, hcur.symm, hnext⟩⟩,
                listed_of_begin h.found ?_⟩
              · simp only [dequeueNode, hnext]
                rfl
              · rw [← h.lines]
          | some next =>
              have hrun : dequeueNode map ⟨cur :: q, isVisited, lines⟩ =
                  next.foldlM (visit map) ⟨q, isVisited, lines⟩ := by
                simp only [dequeueNode, hnext]
              have hnames : nexts map v = next.map TreeNode.name := by
                rw [nexts_of_some hcur.symm, TreeNode.names, hnext]
                rfl
              have hstep := h.found.step
              rw [hnames] at hstep
              -- What is known is the same list before and after, cut in another place.
              have hsplit : (done ++ [v]) ++
                  (queue ++ BreadthFirst.fresh (done ++ v :: queue) (next.map TreeNode.name)) =
                  (done ++ v :: queue) ++
                    BreadthFirst.fresh (done ++ v :: queue) (next.map TreeNode.name) := by
                simp only [List.append_assoc, List.cons_append, List.nil_append]
              rw [hrun]
              rcases @foldlM_visit map next ⟨q, isVisited, lines⟩ _ h.visited h.lines with
                ⟨t, nodes, ht, hq, hfresh, hmem, hout⟩ | ⟨out, hout, ⟨w, hw, hnone⟩, hbegin⟩
              · refine .inl ⟨t, v, _, ht, ⟨hstep, ?_, fun u => ?_, ?_, fun u hu => ?_⟩, ?_⟩
                · rw [hq, List.map_append, List.map_append, hfresh, ← hnodes]
                · rw [hsplit]
                  exact hmem u
                · rw [hsplit]
                  exact hout
                · rcases List.mem_append.mp hu with hu | hu
                  · exact h.listed u hu
                  · rw [List.mem_singleton.mp hu]
                    exact ⟨cur, hcur.symm, by rw [hnext]; exact Option.some_ne_none _⟩
                · rw [hq]
                  change (cur :: q).length ≤ (q ++ nodes).length + 1
                  rw [List.length_append, List.length_cons]
                  omega
              · refine .inr ⟨.keyNotFound, out, hout, ⟨w, hv.tail ?_, .inl ⟨rfl, hnone⟩⟩,
                  listed_of_begin hstep ?_⟩
                · rwa [hnames]
                · rwa [hsplit]

/-- How many keys are not done. What is written and the start are done or queued. -/
def undone (map : Dictionary String TreeNode) (s : BfsState) : Nat :=
  map.count + s.q.length - (s.lines.length + 1)

/-- What is done is a key. -/
theorem Scanned.undone_eq {s : BfsState} {done queue : List String}
    (h : Scanned map s done queue) :
    undone map s = map.count - done.length ∧ done.length ≤ map.count := by
  have hq : s.q.length = queue.length := by
    simpa only [List.length_map] using congrArg List.length h.nodes
  have hlines : s.lines.length + 1 = done.length + queue.length := by
    simpa only [List.length_cons, List.length_append] using congrArg List.length h.lines
  refine ⟨?_, ?_⟩
  · unfold undone
    omega
  · have hkeys : done ⊆ map.entries.map Prod.fst := by
      intro v hv
      rcases h.listed v hv with ⟨node, hnode, -⟩
      exact (map.mem_keys_iff v).mpr ⟨node, hnode⟩
    have hle := (h.found.nodup.sublist (List.sublist_append_left done queue)).length_le_of_subset
      hkeys
    rwa [List.length_map] at hle

/-- The scan of a map in which every node that can be reached is there and has a list writes
    each of them but the start, in order of its distance. Any other scan throws, and what it
    has written is in that order. -/
theorem bfs_ends (map : Dictionary String TreeNode) : ∃ k,
    (Complete map ∧ ∃ lines, (∀ fuel, k < fuel → bfs fuel map = .ok (some lines)) ∧
      Listed map lines ∧ ∀ v, v ∈ "A" :: lines ↔ Reach (nexts map) "A" v) ∨
    ∃ e lines, (∀ fuel, k < fuel → bfs fuel map = .error (e, lines)) ∧ Stuck map e ∧
      Listed map lines := by
  cases hstart : map.tryGetValue "A" with
  | none =>
      refine ⟨0, .inr ⟨.keyNotFound, [], fun fuel _ => ?_,
        ⟨"A", .refl, .inl ⟨rfl, hstart⟩⟩, List.nodup_singleton _, ?_, .nil⟩⟩
      · rw [bfs, item_of_none hstart]
        rfl
      · exact fun v hv => absurd hv List.not_mem_nil
  | some node =>
      have hrun (fuel : Nat) : bfs fuel map =
          Rounds.whileLoop (fun s => s.q.length) (dequeueNode map) fuel ⟨[node], {"A"}, []⟩ >>=
            fun t => pure (t.map BfsState.lines) := by
        rw [bfs, item_of_some hstart]
      have hinit : Scanned map ⟨[node], {"A"}, []⟩ [] ["A"] := by
        refine ⟨BreadthFirst.found_start _ _, ?_, fun v => ?_, rfl, fun v hv => ?_⟩
        · rw [List.map_singleton, List.map_singleton, hstart]
        · rw [Finset.mem_singleton, List.nil_append, List.mem_singleton]
        · exact absurd hv List.not_mem_nil
      have hbody (s : BfsState) (hs : ∃ done queue, Scanned map s done queue)
          (hpos : 0 < s.q.length) :
          (∃ t, dequeueNode map s = .ok t ∧ (∃ done queue, Scanned map t done queue) ∧
            s.q.length ≤ t.q.length + 1 ∧ undone map t < undone map s) ∨
          ∃ e, dequeueNode map s = .error e ∧ Stuck map e.1 ∧ Listed map e.2 := by
        rcases hs with ⟨done, queue, hs⟩
        rcases dequeueNode_scanned hs hpos with
          ⟨t, v, queue', ht, hscanned, hle⟩ | ⟨e, lines, he, hstuck, hlisted⟩
        -- The node that is taken is a key that was not done.
        · have hbefore := hs.undone_eq
          have hafter := hscanned.undone_eq
          rw [List.length_append, List.length_singleton] at hafter
          exact .inl ⟨t, ht, ⟨_, _, hscanned⟩, hle, by omega⟩
        · exact .inr ⟨_, he, hstuck, hlisted⟩
      refine ⟨undone map ⟨[node], {"A"}, []⟩, ?_⟩
      rcases Rounds.whileLoop_ends hbody ⟨_, _, hinit⟩ with
        ⟨t, ht, ⟨done, queue, hs⟩, hzero⟩ | ⟨e, he, hstuck, hlisted⟩
      · left
        -- The queue is empty, so what is done is all there is.
        obtain rfl : queue = [] := by
          have hlength := congrArg List.length hs.nodes
          rw [List.length_map, List.length_map, hzero] at hlength
          exact List.length_eq_zero_iff.mp hlength.symm
        have hlines : "A" :: t.lines = done := by
          rw [hs.lines, List.append_nil]
        refine ⟨fun v hv => hs.listed v (hs.found.mem_iff.mpr hv), t.lines, fun fuel h => ?_,
          listed_of_begin hs.found ?_, fun v => ?_⟩
        · rw [hrun, ht fuel h]
          rfl
        · rw [hs.lines]
        · rw [hlines]
          exact hs.found.mem_iff
      · right
        refine ⟨e.1, e.2, fun fuel h => ?_, hstuck, hlisted⟩
        rw [hrun, he fuel h]
        rfl

end DijkstraSample

end BlogSample
