import BlogSample.DijkstraSample.Search
import BlogSample.Theory.RelaxationTree

/-!
# The Tree of Named Nodes

What `Dijkstra(map, s)` returns: for each node the one before it on a shortest
path. The text that it begins with, the empty one, stays for the source and for
the nodes that are not reached. No other node gets it, since it is not the name
of a neighbour; but it may be the name of the source.

The queue holds nodes, and the search knows them by their names.

## Main definitions

* `NamedMap`: A map whose keys are the names of its nodes.
* `graphOf`: Its graph.
* `namedQueue`: The queue of names.
* `NamedModels`: The variables of the loop are a state of the search.

## Theorems

* `dequeueNamed_models`: Taking an entry out is a step of the search.
* `dijkstraNamed_run`: The run of the method.
* `dijkstraNamed_tree`: The result is a tree of shortest paths.
-/

namespace BlogSample

namespace DijkstraSample

open DotNet Relaxation ShortestPath

/-- A map whose keys are the names of its nodes, and whose nodes have neighbours
    that are keys and not empty. -/
def NamedMap (map : Dictionary String TreeNode) : Prop :=
  ∀ k node, map.tryGetValue k = some node → node.name = k ∧ ∃ next, node.next = some next ∧
    ∀ n ∈ next, n.name ≠ "" ∧ ∃ node', map.tryGetValue n.name = some node'

/-- A name is a key. -/
def IsKey (map : Dictionary String TreeNode) (k : String) : Prop :=
  ∃ node, map.tryGetValue k = some node

/-- The node of a name. -/
def nodeOf (map : Dictionary String TreeNode) (k : String) : TreeNode :=
  (map.tryGetValue k).getD (.mk k 0 none)

/-- The graph of a map. -/
def graphOf (map : Dictionary String TreeNode) : Graph String := fun k =>
  ((nodeOf map k).next.getD []).map (fun n => (n.name, n.val))

section Named

variable {map : Dictionary String TreeNode}

theorem name_nodeOf (hmap : NamedMap map) (k : String) : (nodeOf map k).name = k := by
  unfold nodeOf
  cases hk : map.tryGetValue k with
  | none => rfl
  | some node => exact (hmap k node hk).1

theorem nodeOf_eq {k : String} {node : TreeNode} (h : map.tryGetValue k = some node) :
    nodeOf map k = node := by
  unfold nodeOf
  rw [h]
  rfl

theorem graphOf_eq {k : String} {node : TreeNode} (h : map.tryGetValue k = some node)
    {next : List TreeNode} (hnext : node.next = some next) :
    graphOf map k = next.map (fun n => (n.name, n.val)) := by
  unfold graphOf
  rw [nodeOf_eq h, hnext]
  rfl

/-- An edge is a neighbour of a node of the map. -/
theorem exists_of_mem_graphOf {u : String} {e : String × Int} (he : e ∈ graphOf map u) :
    ∃ node next n, map.tryGetValue u = some node ∧ node.next = some next ∧ n ∈ next ∧
      e = (n.name, n.val) := by
  unfold graphOf nodeOf at he
  cases hu : map.tryGetValue u with
  | none =>
      rw [hu] at he
      exact absurd he List.not_mem_nil
  | some node =>
      rw [hu, Option.getD_some] at he
      cases hnext : node.next with
      | none =>
          rw [hnext] at he
          exact absurd he List.not_mem_nil
      | some next =>
          rw [hnext] at he
          rcases List.mem_map.mp he with ⟨n, hn, heq⟩
          exact ⟨node, next, n, rfl, hnext, hn, heq.symm⟩

/-- The end of an edge is a key that is not empty. -/
theorem key_of_edge (hmap : NamedMap map) {u : String} {e : String × Int}
    (he : e ∈ graphOf map u) : e.1 ≠ "" ∧ IsKey map e.1 := by
  rcases exists_of_mem_graphOf he with ⟨node, next, n, hu, hnext, hn, rfl⟩
  rcases hmap u node hu with ⟨-, next', hnext', hkeys⟩
  rw [hnext] at hnext'
  cases hnext'
  exact hkeys n hn

variable {σ : Type} (P : PriorityQueue σ TreeNode Int) (hmap : NamedMap map)

/-- The queue of names. -/
abbrev namedQueue : PriorityQueue σ String Int :=
  P.rename TreeNode.name (nodeOf map) (name_nodeOf hmap)

/-- The variables of the loop are a state of the search, and the queue holds nodes of
    the map. -/
structure NamedModels (map : Dictionary String TreeNode) (s : State σ String String)
    (x : Search σ String String) : Prop where
  models : Models (IsKey map) s x
  nodes : ∀ y ∈ P.entries s.q, map.tryGetValue y.1.name = some y.1

variable {P}

theorem relaxNamed_models {s : State σ String String} {x : Search σ String String}
    (h : NamedModels P map s x) (cur : String) (dist : Int) {n : TreeNode}
    (hn : IsKey map n.name) :
    ∃ t, relaxNamed P map cur dist s n = .ok t ∧ NamedModels P map t
      (Relaxation.relax (namedQueue P hmap) sum origin cur dist x (n.name, n.val)) := by
  rcases hn with ⟨node, hnode⟩
  unfold relaxNamed Relaxation.relax
  -- Both look up the same distance.
  rw [h.models.visited, item_eq_of_tryGetValue (h.models.distance n.name ⟨node, hnode⟩),
    item_eq_of_tryGetValue hnode]
  by_cases hvisited : n.name ∈ x.visited
  · rw [if_pos hvisited, if_pos hvisited]
    exact ⟨s, rfl, h⟩
  · rw [if_neg hvisited, if_neg hvisited]
    by_cases hlt : sum dist n.val < x.label n.name
    · rw [if_pos hlt]
      refine ⟨_, if_pos hlt, ?_, fun y hy => ?_⟩
      -- The queue gets the node of the map, not the neighbour with its length.
      · have hmodels := h.models.relabel n.name (sum dist n.val) cur
          ((namedQueue P hmap).enqueue x.queue n.name (sum dist n.val))
        rw [h.models.visited, ← h.models.queue] at hmodels
        rw [← h.models.queue, ← nodeOf_eq hnode]
        exact hmodels
      · rw [P.entries_enqueue] at hy
        rcases Multiset.mem_cons.mp hy with rfl | hy
        · rw [(hmap n.name node hnode).1]
          exact hnode
        · exact h.nodes y hy
    · rw [if_neg hlt]
      exact ⟨s, if_neg hlt, h⟩

/-- The loop over the neighbours. -/
theorem foldlM_relaxNamed_models (cur : String) (dist : Int) {next : List TreeNode}
    (hnext : ∀ n ∈ next, IsKey map n.name) {s : State σ String String}
    {x : Search σ String String} (h : NamedModels P map s x) :
    ∃ t, next.foldlM (relaxNamed P map cur dist) s = .ok t ∧ NamedModels P map t
      ((next.map (fun n => (n.name, n.val))).foldl
        (Relaxation.relax (namedQueue P hmap) sum origin cur dist) x) := by
  induction next generalizing s x with
  | nil => exact ⟨s, rfl, h⟩
  | cons n next ih =>
      rcases List.forall_mem_cons.mp hnext with ⟨hn, hnext⟩
      rcases relaxNamed_models hmap h cur dist hn with ⟨t, ht, hmodels⟩
      rw [foldlM_cons_ok ht]
      exact ih hnext hmodels

/-- Taking an entry out is a step of the search. -/
theorem dequeueNamed_models {s : State σ String String} {x : Search σ String String}
    (h : NamedModels P map s x) (hpos : 0 < P.count x.queue) :
    ∃ t, dequeueNamed P map s = .ok t ∧
      NamedModels P map t (Relaxation.next (namedQueue P hmap) sum origin (graphOf map) x) := by
  rcases P.tryDequeue_isSome hpos with ⟨⟨cur, dist⟩, q, hq⟩
  have hqueue := hq
  rw [← h.models.queue] at hq
  have hcur := h.nodes _ (P.mem_of_tryDequeue hq)
  rcases hmap _ _ hcur with ⟨-, next, hnext, hkeys⟩
  have hvisit : NamedModels P map { s with q := q, visited := insert cur.name s.visited }
      { x with queue := q, visited := insert cur.name x.visited } := by
    refine ⟨h.models.visit cur.name q, fun y hy => h.nodes y ?_⟩
    rw [P.entries_of_some _ _ _ hq]
    exact Multiset.mem_cons_of_mem hy
  unfold dequeueNamed Relaxation.next expand
  have hrenamed : (namedQueue P hmap).tryDequeue x.queue = some ((cur.name, dist), q) := by
    unfold namedQueue PriorityQueue.rename
    simp only [hqueue]
    rfl
  rw [hq, hrenamed]
  simp only [hnext]
  rw [graphOf_eq hcur hnext]
  exact foldlM_relaxNamed_models hmap cur.name dist (fun n hn => (hkeys n hn).2) hvisit

/-- One round of the loop over the map, for a key that is new. -/
theorem addName_total (s : String) {t : Dictionary String Int × Dictionary String String}
    {m : String × TreeNode} (hnone : t.1.tryGetValue m.1 = none)
    (hnone' : t.2.tryGetValue m.1 = none) :
    ∃ t', addName s t m = .ok t' ∧ ∀ k,
      t'.1.tryGetValue k =
        (if k = m.1 then some (if m.1 = s then 0 else maxValue) else t.1.tryGetValue k) ∧
      t'.2.tryGetValue k = (if k = m.1 then some "" else t.2.tryGetValue k) := by
  rcases t.1.add_of_none (if m.1 = s then 0 else maxValue) hnone with ⟨distance, hdistance, hfound⟩
  rcases t.2.add_of_none "" hnone' with ⟨res, hres, hfound'⟩
  refine ⟨(distance, res), ?_, fun k => ⟨hfound k, hfound' k⟩⟩
  unfold addName
  by_cases hs : m.1 = s
  · rw [if_pos hs] at hdistance ⊢
    rw [← hs, hdistance, hres]
    rfl
  · rw [if_neg hs] at hdistance ⊢
    rw [hdistance, hres]
    rfl

/-- The loop over the map gives each key the two initial values. -/
theorem foldlM_addName_eq (s : String) {entries : List (String × TreeNode)}
    (hnodup : (entries.map Prod.fst).Nodup) :
    ∃ t, entries.foldlM (addName s) (Dictionary.empty, Dictionary.empty) = .ok t ∧
      ∀ k ∈ entries.map Prod.fst,
        t.1.tryGetValue k = some (if k = s then 0 else maxValue) ∧
        t.2.tryGetValue k = some "" := by
  -- The keys of the rounds to come are not in the tables yet.
  have hloop (l : List (String × TreeNode)) : (l.map Prod.fst).Nodup →
      ∀ t : Dictionary String Int × Dictionary String String,
      (∀ k ∈ l.map Prod.fst, t.1.tryGetValue k = none ∧ t.2.tryGetValue k = none) →
      ∃ t', l.foldlM (addName s) t = .ok t' ∧ ∀ k,
        t'.1.tryGetValue k = (if k ∈ l.map Prod.fst then some (if k = s then 0 else maxValue)
          else t.1.tryGetValue k) ∧
        t'.2.tryGetValue k = (if k ∈ l.map Prod.fst then some "" else t.2.tryGetValue k) := by
    induction l with
    | nil =>
        intro _ t _
        exact ⟨t, rfl, fun k => ⟨(if_neg List.not_mem_nil).symm, (if_neg List.not_mem_nil).symm⟩⟩
    | cons m l ih =>
        intro hl t hfresh
        rw [List.map_cons] at hl hfresh ⊢
        rcases List.nodup_cons.mp hl with ⟨hm, hl⟩
        rcases hfresh m.1 List.mem_cons_self with ⟨hnone, hnone'⟩
        rcases addName_total s hnone hnone' with ⟨u, hadd, hfound⟩
        rw [foldlM_cons_ok hadd]
        have hrest : ∀ k ∈ l.map Prod.fst,
            u.1.tryGetValue k = none ∧ u.2.tryGetValue k = none := by
          intro k hk
          have hkm : k ≠ m.1 := fun heq => hm (heq ▸ hk)
          rw [(hfound k).1, (hfound k).2, if_neg hkm, if_neg hkm]
          exact hfresh k (List.mem_cons_of_mem _ hk)
        rcases ih hl u hrest with ⟨t', ht', hvalues⟩
        refine ⟨t', ht', fun k => ?_⟩
        rw [(hvalues k).1, (hvalues k).2, (hfound k).1, (hfound k).2]
        by_cases hkm : k = m.1
        · subst hkm
          rw [if_neg hm, if_neg hm, if_pos rfl, if_pos rfl, if_pos List.mem_cons_self,
            if_pos List.mem_cons_self]
          exact ⟨rfl, rfl⟩
        · simp only [List.mem_cons, hkm, false_or, if_false, and_self]
  rcases hloop entries hnodup (Dictionary.empty, Dictionary.empty) (fun _ _ => ⟨rfl, rfl⟩) with
    ⟨t, ht, hvalues⟩
  refine ⟨t, ht, fun k hk => ?_⟩
  rw [(hvalues k).1, (hvalues k).2, if_pos hk, if_pos hk]
  exact ⟨rfl, rfl⟩

variable (P)

/-- The search before the loop. -/
abbrev namedSearch (s : String) : Search σ String String :=
  Relaxation.start (namedQueue P hmap) s maxValue (fun _ => "")

theorem initialNamed_models {s : String} (hs : IsKey map s) :
    ∃ st, initialNamed P map s = .ok st ∧ NamedModels P map st (namedSearch P hmap s) := by
  rcases hs with ⟨node, hnode⟩
  rcases foldlM_addName_eq s map.nodup with ⟨t, ht, hvalues⟩
  refine ⟨_, by rw [initialNamed, item_eq_of_tryGetValue hnode, ht]; rfl, ⟨?_, rfl, fun v hv => ?_,
    fun v hv => ?_⟩, fun y hy => ?_⟩
  · change P.enqueue P.empty node 0 = P.enqueue P.empty (nodeOf map s) 0
    rw [nodeOf_eq hnode]
  · unfold namedSearch Relaxation.start
    simp only [Function.update_apply]
    exact (hvalues v ((map.mem_keys_iff v).mpr hv)).1
  · exact (hvalues v ((map.mem_keys_iff v).mpr hv)).2
  · rw [P.entries_enqueue, P.entries_empty] at hy
    rcases Multiset.mem_cons.mp hy with rfl | hy
    · rw [(hmap s node hnode).1]
      exact hnode
    · exact absurd hy (Multiset.notMem_zero y)

/-- The loop takes finitely many entries out, and these are the steps of the search
    up to its end. -/
theorem dijkstraNamed_run {s : String} (hs : IsKey map s) :
    ∃ k t, NamedModels P map t
        ((Relaxation.next (namedQueue P hmap) sum origin (graphOf map))^[k]
          (namedSearch P hmap s)) ∧
      P.count t.q = 0 ∧ ∀ fuel, k < fuel → dijkstraNamed P fuel map s = .ok (some t.res) := by
  rcases initialNamed_models P hmap hs with ⟨st, hst, hmodels⟩
  have hkeys : ∀ u, ∀ e ∈ graphOf map u, e.1 ∈ (map.entries.map Prod.fst).toFinset :=
    fun u e he => List.mem_toFinset.mpr ((map.mem_keys_iff e.1).mpr (key_of_edge hmap he).2)
  rcases @exists_finished σ String String _ (namedQueue P hmap) sum origin (graphOf map)
    (map.entries.map Prod.fst).toFinset (-2147483648) hkeys le_sum (namedSearch P hmap s) with
    ⟨k, -, hzero, hpos⟩
  simp only [PriorityQueue.count_rename] at hzero hpos
  have hdrop := fun x => @count_next σ String String _ (namedQueue P hmap) sum origin
    (graphOf map) x
  simp only [PriorityQueue.count_rename] at hdrop
  -- The loop looks at the queue of the code, and the search at its own.
  have hcount (s : State σ String String) (x : Search σ String String) (h : NamedModels P map s x) :
      P.count s.q = P.count x.queue := congrArg P.count h.models.queue
  rcases Rounds.whileLoop_eq hcount (fun _ _ => dequeueNamed_models hmap) hdrop hmodels hzero hpos
    with ⟨t, -, hend, hwhile⟩
  refine ⟨k, t, hend, (hcount _ _ hend).trans hzero, fun fuel hfuel => ?_⟩
  unfold dijkstraNamed
  rw [hst]
  change (Rounds.whileLoop _ _ fuel st >>= _) = _
  rw [hwhile fuel hfuel]
  rfl

/-- The invariants at the end of the loop. -/
theorem invariants_iterate (hG : Nonneg (graphOf map)) {s : String}
    (hsimple : SimpleBelow (graphOf map) s maxValue) (k : Nat) :
    Inv (namedQueue P hmap) (graphOf map) s maxValue
        ((Relaxation.next (namedQueue P hmap) sum origin (graphOf map))^[k]
          (namedSearch P hmap s)) ∧
      Tree (namedQueue P hmap) (graphOf map) s maxValue ""
        ((Relaxation.next (namedQueue P hmap) sum origin (graphOf map))^[k]
          (namedSearch P hmap s)) := by
  induction k with
  | zero => exact ⟨Inv.start (by decide) _, Tree.start maxValue ""⟩
  | succ k ih =>
      rcases ih with ⟨hinv, htree⟩
      have hexact := exact_of_simpleBelow hG hsimple hinv
      rw [Function.iterate_succ_apply']
      exact ⟨hinv.next hG hexact, htree.next hinv hexact⟩

/-- The node before a node. -/
def follow (res : Dictionary String String) (v : String) : String :=
  (res.tryGetValue v).getD ""

include hmap in
/-- From each node that is reached, the nodes before it lead back to the source on a
    shortest path. The source and the nodes that are not reached have the empty text,
    and no others do if the source is not the empty text itself. -/
theorem dijkstraNamed_tree (hG : Nonneg (graphOf map)) {s : String} (hs : IsKey map s)
    (hsimple : SimpleBelow (graphOf map) s maxValue) :
    ∃ k res, (∀ fuel, k < fuel → dijkstraNamed P fuel map s = .ok (some res)) ∧
      (∀ v, IsKey map v → ∃ u, res.tryGetValue v = some u) ∧
      (∀ v, Reachable (graphOf map) s v → ∃ vs d, TreePath (graphOf map) (follow res) s v vs d ∧
        vs.Nodup ∧ IsDistance (graphOf map) s v d) ∧
      (∀ v, IsKey map v → v = s ∨ ¬Reachable (graphOf map) s v → res.tryGetValue v = some "") ∧
      (s ≠ "" → ∀ v, IsKey map v → res.tryGetValue v = some "" →
        v = s ∨ ¬Reachable (graphOf map) s v) := by
  rcases dijkstraNamed_run P hmap hs with ⟨k, t, hmodels, hzero, hresult⟩
  rcases invariants_iterate P hmap hG hsimple k with ⟨hinv, htree⟩
  have hcount : (namedQueue P hmap).count t.q = 0 :=
    (PriorityQueue.count_rename P _ _ _ t.q).trans hzero
  rw [hmodels.models.queue] at hcount
  generalize (Relaxation.next (namedQueue P hmap) sum origin (graphOf map))^[k]
    (namedSearch P hmap s) = x at hmodels hinv htree hcount
  have hfollow (v : String) (hv : IsKey map v) : follow t.res v = x.mark v := by
    unfold follow
    rw [hmodels.models.res v hv]
    rfl
  have hkey {v u : String} {vs : List String} {d : Int} (hpath : Path (graphOf map) s v vs d)
      (hu : u ∈ vs) : IsKey map u := by
    rcases hpath.eq_or_edge hu with rfl | ⟨u', w, he⟩
    · exact hs
    · exact (key_of_edge hmap he).2
  -- A vertex that is reached is reached by a path that is short enough.
  have hlabel (v : String) (hv : Reachable (graphOf map) s v) : x.label v < maxValue := by
    rcases hsimple.exists_path hG hv with ⟨vs, d, hpath, hd⟩
    exact Int.lt_of_le_of_lt (hinv.label_le hG hcount hpath hd) hd
  have hpaths : ∀ v, Reachable (graphOf map) s v → ∃ vs d,
      TreePath (graphOf map) (follow t.res) s v vs d ∧ vs.Nodup ∧
        IsDistance (graphOf map) s v d := by
    intro v hv
    rcases htree.path v (hlabel v hv) with ⟨vs, hpath, hnodup, -⟩
    exact ⟨vs, _, hpath.congr (fun u hu => hfollow u (hkey hpath.path hu)), hnodup,
      hinv.isDistance hG hcount (hlabel v hv)⟩
  refine ⟨k, t.res, hresult, fun v hv => ⟨_, hmodels.models.res v hv⟩, hpaths, fun v hv h => ?_,
    fun hne v hv hempty => ?_⟩
  · rw [hmodels.models.res v hv, htree.bare v (h.imp_right (fun hno => ?_))]
    by_contra htop
    rcases hinv.path v (lt_of_le_of_ne (hinv.le_top v) htop) with ⟨vs, hpath⟩
    exact hno ⟨vs, _, hpath⟩
  · by_contra hor
    rw [not_or, not_not] at hor
    rcases hpaths v hor.2 with ⟨vs, d, hpath, -⟩
    cases hpath with
    | nil => exact hor.1 rfl
    | snoc u _ vs d w hpath hu he _ =>
        -- The node before it would have to be the empty text.
        have hu0 : u = "" := by
          rw [← hu]
          unfold follow
          rw [hempty]
          rfl
        -- An empty text is no end of an edge, so it can only be the source.
        rcases hpath.path.head with ⟨ws, rfl⟩
        rcases hpath.path.eq_or_edge List.mem_cons_self with hus | ⟨u', w', he'⟩
        · exact hne (hus.symm.trans hu0)
        · exact (key_of_edge hmap he').1 hu0

end Named

/-- A node with a direct way to another one and a shorter way. -/
def detour : Dictionary String TreeNode where
  entries :=
    [("A", .mk "A" 0 (some [.mk "B" 5 none, .mk "C" 1 none])), ("B", .mk "B" 0 (some [])),
      ("C", .mk "C" 0 (some [.mk "B" 2 none]))]
  nodup := by decide

theorem dijkstraNamed_tree_detour :
    ∃ k res, (∀ fuel, k < fuel →
        dijkstraNamed (sortedQueue TreeNode) fuel detour "A" = .ok (some res)) ∧
      (∀ v, IsKey detour v → ∃ u, res.tryGetValue v = some u) ∧
      (∀ v, Reachable (graphOf detour) "A" v → ∃ vs d,
        TreePath (graphOf detour) (follow res) "A" v vs d ∧ vs.Nodup ∧
          IsDistance (graphOf detour) "A" v d) ∧
      (∀ v, IsKey detour v → v = "A" ∨ ¬Reachable (graphOf detour) "A" v →
        res.tryGetValue v = some "") ∧
      ("A" ≠ "" → ∀ v, IsKey detour v → res.tryGetValue v = some "" →
        v = "A" ∨ ¬Reachable (graphOf detour) "A" v) := by
  have hentry {k : String} {node : TreeNode} (h : detour.tryGetValue k = some node) :
      (k, node) ∈ detour.entries := (detour.tryGetValue_eq_some_iff k node).mp h
  have hmap : NamedMap detour := by
    intro k node h
    have h := hentry h
    simp only [detour, List.mem_cons, Prod.mk.injEq, List.not_mem_nil, or_false] at h
    rcases h with ⟨rfl, rfl⟩ | ⟨rfl, rfl⟩ | ⟨rfl, rfl⟩
    all_goals refine ⟨rfl, _, rfl, ?_⟩
    all_goals simp only [List.forall_mem_cons, List.not_mem_nil, false_implies, implies_true,
      and_true]
    · exact ⟨⟨by decide, _, rfl⟩, by decide, _, rfl⟩
    · exact ⟨by decide, _, rfl⟩
  -- The three edges of the map.
  have hedge {u v : String} {w : Int} (he : (v, w) ∈ graphOf detour u) :
      (u = "A" ∧ v = "B" ∧ w = 5) ∨ (u = "A" ∧ v = "C" ∧ w = 1) ∨
        (u = "C" ∧ v = "B" ∧ w = 2) := by
    rcases exists_of_mem_graphOf he with ⟨node, next, n, hnode, hnext, hn, heq⟩
    have h := hentry hnode
    simp only [detour, List.mem_cons, Prod.mk.injEq, List.not_mem_nil, or_false] at h
    rcases h with ⟨rfl, rfl⟩ | ⟨rfl, rfl⟩ | ⟨rfl, rfl⟩
    all_goals cases hnext
    all_goals simp only [List.mem_cons, List.not_mem_nil, or_false] at hn
    · rcases hn with rfl | rfl
      all_goals cases heq
      · exact .inl ⟨rfl, rfl, rfl⟩
      · exact .inr (.inl ⟨rfl, rfl, rfl⟩)
    · rw [hn] at heq
      cases heq
      exact .inr (.inr ⟨rfl, rfl, rfl⟩)
  refine dijkstraNamed_tree (sortedQueue TreeNode) hmap (fun u e he => ?_) ⟨_, rfl⟩
    (fun v vs d hpath _ => ?_)
  · rcases hedge he with ⟨-, -, hw⟩ | ⟨-, -, hw⟩ | ⟨-, -, hw⟩
    all_goals rw [hw]; decide
  -- No path is longer than five, by induction along it.
  · have hbound {v : String} {vs : List String} {d : Int}
        (hpath : Path (graphOf detour) "A" v vs d) :
        (v = "A" → d ≤ 0) ∧ (v = "C" → d ≤ 1) ∧ d ≤ 5 := by
      induction hpath with
      | nil => exact ⟨fun _ => by decide, fun _ => by decide, by decide⟩
      | snoc u v vs d w _ he ih =>
          rcases hedge he with ⟨rfl, rfl, rfl⟩ | ⟨rfl, rfl, rfl⟩ | ⟨rfl, rfl, rfl⟩
          · have hd := ih.1 rfl
            exact ⟨fun h => absurd h (by decide), fun h => absurd h (by decide), by omega⟩
          · have hd := ih.1 rfl
            exact ⟨fun h => absurd h (by decide), fun _ => by omega, by omega⟩
          · have hd := ih.2.1 rfl
            exact ⟨fun h => absurd h (by decide), fun h => absurd h (by decide), by omega⟩
    have hd := (hbound hpath).2.2
    unfold maxValue
    omega

/-- A node without a name, and its neighbour. -/
def unnamed : Dictionary String TreeNode where
  entries := [("", .mk "" 0 (some [.mk "A" 1 none])), ("A", .mk "A" 0 (some []))]
  nodup := by decide

/-- The neighbour of a source without a name has the empty text, although it is
    reached. -/
theorem dijkstraNamed_unnamed :
    NamedMap unnamed ∧ Nonneg (graphOf unnamed) ∧ SimpleBelow (graphOf unnamed) "" maxValue ∧
      IsKey unnamed "" ∧ ∃ res,
        dijkstraNamed (sortedQueue TreeNode) 3 unnamed "" = .ok (some res) ∧
          IsKey unnamed "A" ∧ res.tryGetValue "A" = some "" ∧ "A" ≠ "" ∧
            Reachable (graphOf unnamed) "" "A" := by
  have hentry {k : String} {node : TreeNode} (h : unnamed.tryGetValue k = some node) :
      (k, node) ∈ unnamed.entries := (unnamed.tryGetValue_eq_some_iff k node).mp h
  -- The only edge of the map, which begins at the vertex with no name.
  have hedge {u v : String} {w : Int} (he : (v, w) ∈ graphOf unnamed u) :
      u = "" ∧ v = "A" ∧ w = 1 := by
    rcases exists_of_mem_graphOf he with ⟨node, next, n, hnode, hnext, hn, heq⟩
    have h := hentry hnode
    simp only [unnamed, List.mem_cons, Prod.mk.injEq, List.not_mem_nil, or_false] at h
    rcases h with ⟨rfl, rfl⟩ | ⟨rfl, rfl⟩
    all_goals cases hnext
    all_goals simp only [List.mem_cons, List.not_mem_nil, or_false] at hn
    rw [hn] at heq
    cases heq
    exact ⟨rfl, rfl, rfl⟩
  refine ⟨fun k node h => ?_, fun u e he => ?_, fun v vs d hpath _ => ?_, ⟨_, rfl⟩, _, rfl,
    ⟨_, rfl⟩, by decide +kernel, by decide,
    (Reachable.refl _ "").step (List.mem_singleton_self ("A", 1))⟩
  · have h := hentry h
    simp only [unnamed, List.mem_cons, Prod.mk.injEq, List.not_mem_nil, or_false] at h
    rcases h with ⟨rfl, rfl⟩ | ⟨rfl, rfl⟩
    all_goals refine ⟨rfl, _, rfl, ?_⟩
    all_goals simp only [List.forall_mem_cons, List.not_mem_nil, false_implies, implies_true,
      and_true]
    exact ⟨by decide, _, rfl⟩
  · rw [(hedge he).2.2]
    decide
  · have hbound {v : String} {vs : List String} {d : Int}
        (hpath : Path (graphOf unnamed) "" v vs d) : (v = "" → d ≤ 0) ∧ d ≤ 1 := by
      induction hpath with
      | nil => exact ⟨fun _ => by decide, by decide⟩
      | snoc u v vs d w _ he ih =>
          rcases hedge he with ⟨rfl, rfl, rfl⟩
          have hd := ih.1 rfl
          exact ⟨fun h => absurd h (by decide), by omega⟩
    have hd := (hbound hpath).2
    unfold maxValue
    omega

end DijkstraSample

end BlogSample
