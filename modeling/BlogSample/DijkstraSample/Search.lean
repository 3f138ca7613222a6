import BlogSample.DijkstraSample.Program
import BlogSample.Theory.Relaxation
import Mathlib.Order.Interval.Finset.Basic
import Mathlib.Data.Int.Interval

/-!
# Dijkstra as a Search by Relaxation

Both methods take the steps of a search, whose labels and marks are what the
two dictionaries hold. For the method on numbered vertices this gives the
whole run: it throws nowhere, and its loop ends after finitely many entries,
whatever the weights are.

## Main definitions

* `Models`: The variables of the loop are a state of the search.
* `EdgesIn`: Edges between numbered vertices.
* `graph`: The graph of a list of edges.
* `search`, `step`: The search of the first method.

## Theorems

* `exact_of_simpleBelow`: Sums are exact on short paths.
* `Models.relabel`: An edge that is relaxed.
* `nextMap_eq`: The map of the edges out of each vertex.
* `dijkstra_run`: The run of the first method.
* `dijkstra_terminates`: The loop ends, whatever the weights are.
-/

namespace BlogSample

namespace DijkstraSample

open DotNet Relaxation ShortestPath

/-- Sums as the code computes them. -/
def sum (a b : Int) : Int :=
  wrap (a + b)

/-- `int.MaxValue`. -/
abbrev maxValue : Int := 2147483647

theorem le_sum (a b : Int) : -2147483648 ≤ sum a b :=
  (wrap_inRange (a + b)).1

/-- A sum that fits is exact. -/
theorem sum_eq {a b : Int} (ha : 0 ≤ a) (hb : 0 ≤ b) (h : a + b ≤ maxValue) :
    sum a b = a + b :=
  wrap_of_inRange ⟨by omega, h⟩

/-- A sum that does not fit is negative. -/
theorem sum_neg {a b : Int} (ha : a ≤ maxValue) (hb : b ≤ maxValue) (h : maxValue < a + b) :
    sum a b < 0 := by
  unfold sum wrap
  unfold maxValue at ha hb h
  omega

section Exact

variable {σ κ ρ : Type} [DecidableEq κ] {P : PriorityQueue σ κ Int} {G : Graph κ} {src : κ}
  {x : Search σ κ ρ}

omit [DecidableEq κ] in
/-- The priority of an entry is a length. -/
theorem nonneg_of_tryDequeue (hG : Nonneg G) (hx : Inv P G src maxValue x) {cur : κ} {val : Int}
    {q : σ} (hq : P.tryDequeue x.queue = some ((cur, val), q)) : 0 ≤ val ∧ val < maxValue := by
  rcases hx.entry cur val (P.mem_of_tryDequeue hq) with ⟨-, hlt, vs, hpath, -⟩
  exact ⟨hpath.length_nonneg hG, hlt⟩

/-- Sums are exact when the paths without repetition are short, since an entry is the
    length of such a path. -/
theorem exact_of_simpleBelow (hG : Nonneg G) (hsimple : SimpleBelow G src maxValue)
    (hx : Inv P G src maxValue x) : Exact P sum G x := by
  intro cur val q hq e he hnew
  rcases hx.extend hq he hnew with ⟨vs, hpath, hnodup, -⟩
  have hlt := hsimple e.1 vs (val + e.2) hpath hnodup
  exact sum_eq (nonneg_of_tryDequeue hG hx hq).1 (hG cur e he) (Int.le_of_lt hlt)

end Exact

section Models

variable {σ κ ρ : Type} [DecidableEq κ]

/-- The variables of the loop are a state of a search, for some of its vertices. -/
structure Models (keys : κ → Prop) (s : State σ κ ρ) (x : Search σ κ ρ) : Prop where
  queue : s.q = x.queue
  visited : s.visited = x.visited
  distance (v : κ) : keys v → s.distance.tryGetValue v = some (x.label v)
  res (v : κ) : keys v → s.res.tryGetValue v = some (x.mark v)

variable {keys : κ → Prop} {s : State σ κ ρ} {x : Search σ κ ρ}

/-- A vertex that is visited. -/
theorem Models.visit (h : Models keys s x) (cur : κ) (q : σ) :
    Models keys { s with q := q, visited := insert cur s.visited }
      { x with queue := q, visited := insert cur x.visited } :=
  ⟨rfl, congrArg (insert cur) h.visited, h.distance, h.res⟩

/-- A vertex that gets a distance and a result. -/
theorem Models.relabel (h : Models keys s x) (v : κ) (d : Int) (r : ρ) (q : σ) :
    Models keys { s with distance := s.distance.set v d, q := q, res := s.res.set v r }
      { x with queue := q, label := Function.update x.label v d,
               mark := Function.update x.mark v r } := by
  refine ⟨rfl, h.visited, fun u hu => ?_, fun u hu => ?_⟩
  · simp only [Dictionary.tryGetValue_set_eq, Function.update_apply]
    by_cases huv : u = v
    · rw [if_pos huv, if_pos huv]
    · rw [if_neg huv, if_neg huv]
      exact h.distance u hu
  · simp only [Dictionary.tryGetValue_set_eq, Function.update_apply]
    by_cases huv : u = v
    · rw [if_pos huv, if_pos huv]
    · rw [if_neg huv, if_neg huv]
      exact h.res u hu

/-- The indexer finds a key whose value is known. -/
theorem item_eq_of_tryGetValue {ν : Type} {d : Dictionary κ ν} {k : κ} {v : ν}
    (h : d.tryGetValue k = some v) : d.item k = .ok v :=
  (d.item_eq_ok_iff k v).mpr ((d.tryGetValue_eq_some_iff k v).mp h)

end Models

section Numbered

/-- Edges between the vertices below `n`, whose lengths are `int`s. -/
def EdgesIn (n : Int) (edges : List (List Int)) : Prop :=
  ∀ d ∈ edges, ∃ u v w rest, d = u :: v :: w :: rest ∧ (0 ≤ u ∧ u < n) ∧ (0 ≤ v ∧ v < n) ∧
    InRange w

/-- The edge out of a vertex that an entry of the list is. -/
def edgeFrom (u : Int) : List Int → Option (Int × Int)
  | cur :: next :: val :: _ => if cur = u then some (next, val) else none
  | _ => none

theorem edgeFrom_cons (u cur next val : Int) (rest : List Int) :
    edgeFrom u (cur :: next :: val :: rest) = if cur = u then some (next, val) else none :=
  rfl

/-- The graph of a list of edges. -/
def graph (edges : List (List Int)) : Graph Int := fun u =>
  edges.filterMap (edgeFrom u)

theorem mem_graph {edges : List (List Int)} {u v w : Int} :
    (v, w) ∈ graph edges u ↔ ∃ rest, u :: v :: w :: rest ∈ edges := by
  unfold graph
  rw [List.mem_filterMap]
  constructor
  · rintro ⟨d, hd, he⟩
    match d with
    | cur :: next :: val :: rest =>
        rw [edgeFrom_cons] at he
        by_cases hcur : cur = u
        · rw [if_pos hcur] at he
          cases he
          rw [hcur] at hd
          exact ⟨rest, hd⟩
        · rw [if_neg hcur] at he
          cases he
    | [] => cases he
    | [_] => cases he
    | [_, _] => cases he
  · rintro ⟨rest, hd⟩
    exact ⟨_, hd, if_pos rfl⟩

variable {σ : Type} (P : PriorityQueue σ Int Int)

omit P in
/-- An edge is appended to those out of its vertex. -/
theorem addEdge_eq (m : Dictionary Int (List (Int × Int))) (cur next val : Int)
    (rest : List Int) :
    ∃ m', addEdge m (cur :: next :: val :: rest) = .ok m' ∧ ∀ u, (m'.tryGetValue u).getD [] =
      (m.tryGetValue u).getD [] ++ (edgeFrom u (cur :: next :: val :: rest)).toList := by
  have hitem : (m.tryAdd cur []).item cur = .ok ((m.tryGetValue cur).getD []) := by
    refine item_eq_of_tryGetValue ?_
    rw [Dictionary.tryGetValue_tryAdd, if_pos rfl]
  refine ⟨(m.tryAdd cur []).set cur ((m.tryGetValue cur).getD [] ++ [(next, val)]), ?_,
    fun u => ?_⟩
  · change ((m.tryAdd cur []).item cur >>= _) = _
    rw [hitem]
    rfl
  · rw [Dictionary.tryGetValue_set_eq, Dictionary.tryGetValue_tryAdd, edgeFrom_cons]
    by_cases hu : u = cur
    · rw [if_pos hu, if_pos hu.symm, hu]
      rfl
    · rw [if_neg hu, if_neg hu, if_neg (Ne.symm hu)]
      exact (List.append_nil _).symm

omit P in
/-- The map of the edges out of each vertex is the graph. -/
theorem nextMap_eq {n : Int} {edges : List (List Int)} (hin : EdgesIn n edges) :
    ∃ m, nextMap edges = .ok m ∧ ∀ u, (m.tryGetValue u).getD [] = graph edges u := by
  -- Each entry of the list adds its edge behind those that are there.
  have hfold (l : List (List Int)) (hl : EdgesIn n l) : ∀ m : Dictionary Int (List (Int × Int)),
      ∃ m', l.foldlM addEdge m = .ok m' ∧
        ∀ u, (m'.tryGetValue u).getD [] = (m.tryGetValue u).getD [] ++ graph l u := by
    induction l with
    | nil => exact fun m => ⟨m, rfl, fun u => (List.append_nil _).symm⟩
    | cons d l ih =>
        intro m
        rcases List.forall_mem_cons.mp hl with ⟨⟨cur, next, val, rest, rfl, -⟩, htail⟩
        rcases addEdge_eq m cur next val rest with ⟨m₁, hm₁, hedge⟩
        rcases ih htail m₁ with ⟨m', hm', hgraph⟩
        rw [foldlM_cons_ok hm₁]
        refine ⟨m', hm', fun u => ?_⟩
        rw [hgraph, hedge, List.append_assoc]
        unfold graph
        rw [List.filterMap_cons]
        cases edgeFrom u (cur :: next :: val :: rest) <;> rfl
  exact hfold edges hin Dictionary.empty

/-- The search of the method. -/
abbrev step (G : Graph Int) : Search σ Int Int → Search σ Int Int :=
  Relaxation.next P sum (fun _ d => d) G

/-- The search before the loop. -/
def search (src : Int) : Search σ Int Int :=
  Relaxation.start P src maxValue (Function.update (fun _ => -1) src 0)

/-- The vertices of a search are those below `n` and the source. -/
abbrev Below (n : Int) (v : Int) : Prop :=
  0 ≤ v ∧ v < n

theorem relax_models {n cur val : Int} {s : State σ Int Int} {x : Search σ Int Int}
    (h : Models (Below n) s x) {e : Int × Int} (he : Below n e.1) :
    ∃ t, relax P val s e = .ok t ∧
      Models (Below n) t (Relaxation.relax P sum (fun _ d => d) cur val x e) := by
  unfold relax Relaxation.relax
  rw [h.visited, item_eq_of_tryGetValue (h.distance e.1 he)]
  by_cases hvisited : e.1 ∈ x.visited
  · rw [if_pos hvisited, if_pos hvisited]
    exact ⟨s, rfl, h⟩
  · rw [if_neg hvisited, if_neg hvisited]
    by_cases hlt : sum val e.2 < x.label e.1
    · rw [if_pos hlt]
      refine ⟨_, if_pos hlt, ?_⟩
      have hmodels := h.relabel e.1 (sum val e.2) (sum val e.2)
        (P.enqueue x.queue e.1 (sum val e.2))
      rw [h.visited] at hmodels
      rw [h.queue]
      exact hmodels
    · rw [if_neg hlt]
      exact ⟨s, if_neg hlt, h⟩

/-- The loop over the edges out of a vertex. -/
theorem foldlM_relax_models {n cur val : Int} {edges : List (Int × Int)}
    (hedges : ∀ e ∈ edges, Below n e.1) {s : State σ Int Int} {x : Search σ Int Int}
    (h : Models (Below n) s x) :
    ∃ t, edges.foldlM (relax P val) s = .ok t ∧
      Models (Below n) t (edges.foldl (Relaxation.relax P sum (fun _ d => d) cur val) x) := by
  induction edges generalizing s x with
  | nil => exact ⟨s, rfl, h⟩
  | cons e edges ih =>
      rcases List.forall_mem_cons.mp hedges with ⟨he, hedges⟩
      rcases relax_models P h he with ⟨t, ht, hmodels⟩
      rw [foldlM_cons_ok ht]
      exact ih hedges hmodels

/-- Taking an entry out is a step of the search. -/
theorem dequeue_models {n : Int} {G : Graph Int} (hG : ∀ u, ∀ e ∈ G u, Below n e.1)
    {m : Dictionary Int (List (Int × Int))} (hm : ∀ u, (m.tryGetValue u).getD [] = G u)
    {s : State σ Int Int} {x : Search σ Int Int} (h : Models (Below n) s x)
    (hpos : 0 < P.count x.queue) :
    ∃ t, dequeue P m s = .ok t ∧ Models (Below n) t (step P G x) := by
  rcases P.tryDequeue_isSome hpos with ⟨⟨cur, val⟩, q, hq⟩
  have hvisit := h.visit cur q
  unfold dequeue step Relaxation.next expand
  rw [h.queue, hq]
  simp only [Option.getD_some]
  cases hnodes : m.tryGetValue cur with
  | none =>
      -- A vertex without edges is not in the map.
      have hnil := hm cur
      rw [hnodes] at hnil
      rw [← hnil]
      exact ⟨_, rfl, hvisit⟩
  | some nodes =>
      have hcur := hm cur
      rw [hnodes] at hcur
      have hcur : nodes = G cur := hcur
      rw [hcur]
      exact foldlM_relax_models P (hG cur) hvisit

/-- The loop over the vertices gives each of them the two initial values. -/
theorem tables_eq (n : Int) :
    ∃ t, tables n = .ok t ∧ ∀ v, Below n v →
      t.1.tryGetValue v = some maxValue ∧ t.2.tryGetValue v = some (-1) := by
  -- After `k` rounds the first `k` vertices have their entries.
  have hloop (k : Nat) : ∃ t, (List.range k).foldlM addVertex (Dictionary.empty, Dictionary.empty)
      = .ok t ∧ ∀ v : Int,
        t.1.tryGetValue v = (if 0 ≤ v ∧ v < k then some maxValue else none) ∧
        t.2.tryGetValue v = (if 0 ≤ v ∧ v < k then some (-1) else none) := by
    induction k with
    | zero =>
        refine ⟨_, rfl, fun v => ?_⟩
        rw [if_neg (by omega), if_neg (by omega)]
        exact ⟨rfl, rfl⟩
    | succ k ih =>
        rcases ih with ⟨t, ht, hvalues⟩
        have hnone : ¬(0 ≤ (k : Int) ∧ (k : Int) < k) := by omega
        rcases t.1.add_of_none maxValue ((hvalues k).1.trans (if_neg hnone)) with
          ⟨distance, hdistance, hfound⟩
        rcases t.2.add_of_none (-1) ((hvalues k).2.trans (if_neg hnone)) with
          ⟨res, hres, hfound'⟩
        refine ⟨(distance, res), ?_, fun v => ?_⟩
        · rw [List.range_succ, foldlM_append_ok ht, List.foldlM_cons]
          unfold addVertex
          rw [hdistance, hres]
          rfl
        · rw [hfound, hfound', (hvalues v).1, (hvalues v).2]
          split_ifs <;> first | omega | exact ⟨rfl, rfl⟩
  rcases hloop n.toNat with ⟨t, ht, hvalues⟩
  refine ⟨t, ht, fun v hv => ?_⟩
  have hbelow : 0 ≤ v ∧ v < n.toNat := ⟨hv.1, by have := hv.1; have := hv.2; omega⟩
  rw [(hvalues v).1, (hvalues v).2, if_pos hbelow, if_pos hbelow]
  exact ⟨rfl, rfl⟩

/-- The variables before the loop are the search before its first step. -/
theorem initial_models (n src : Int) :
    ∃ s, initial P n src = .ok s ∧ Models (Below n) s (search P src) := by
  rcases tables_eq n with ⟨t, ht, hvalues⟩
  refine ⟨_, by rw [initial, ht]; rfl, rfl, rfl, fun v hv => ?_, fun v hv => ?_⟩
  · unfold search Relaxation.start
    simp only [Dictionary.tryGetValue_set_eq, Function.update_apply]
    by_cases hsrc : v = src
    · rw [if_pos hsrc, if_pos hsrc]
    · rw [if_neg hsrc, if_neg hsrc]
      exact (hvalues v hv).1
  · unfold search Relaxation.start
    simp only [Dictionary.tryGetValue_set_eq, Function.update_apply]
    by_cases hsrc : v = src
    · rw [if_pos hsrc, if_pos hsrc]
    · rw [if_neg hsrc, if_neg hsrc]
      exact (hvalues v hv).2

variable {n : Int} {edges : List (List Int)}

omit P in
theorem graph_below (hin : EdgesIn n edges) (u : Int) : ∀ e ∈ graph edges u, Below n e.1 := by
  intro e he
  rcases mem_graph.mp he with ⟨rest, hmem⟩
  rcases hin _ hmem with ⟨_, v, w, rest, heq, -, hv, -⟩
  cases heq
  exact hv

/-- A state in the run is a state of the search. -/
theorem runs_models (hin : EdgesIn n edges) {src : Int} {s : State σ Int Int}
    (hs : initial P n src = .ok s) {m : Dictionary Int (List (Int × Int))}
    (hm : nextMap edges = .ok m) {k : Nat} {t : State σ Int Int}
    (hruns : Rounds.Runs (fun s => P.count s.q) (dequeue P m) s k t) :
    Models (Below n) t ((step P (graph edges))^[k] (search P src)) := by
  rcases initial_models P n src with ⟨s', hs', hmodels⟩
  rcases nextMap_eq hin with ⟨m', hm', hgraph⟩
  rw [hs] at hs'
  rw [hm] at hm'
  cases hs'
  cases hm'
  exact hruns.simulated (fun _ _ h => congrArg P.count h.queue)
    (fun _ _ => dequeue_models P (graph_below hin) hgraph) hmodels

/-- The loop takes finitely many entries out, and these are the steps of the search
    up to its end. -/
theorem dijkstra_run (hin : EdgesIn n edges) (src : Int) :
    ∃ s m k t, initial P n src = .ok s ∧ nextMap edges = .ok m ∧
      Rounds.Runs (fun s => P.count s.q) (dequeue P m) s k t ∧
      Models (Below n) t ((step P (graph edges))^[k] (search P src)) ∧
      (∀ j < k, 0 < P.count ((step P (graph edges))^[j] (search P src)).queue) ∧
      P.count t.q = 0 ∧ ∀ fuel, k < fuel → dijkstra P fuel n edges src = .ok (some t.res) := by
  rcases initial_models P n src with ⟨s, hs, hmodels⟩
  rcases nextMap_eq hin with ⟨m, hm, hgraph⟩
  have hkeys : ∀ u, ∀ e ∈ graph edges u, e.1 ∈ Finset.Ico 0 n := fun u e he =>
    Finset.mem_Ico.mpr (graph_below hin u e he)
  rcases @exists_finished σ Int Int _ P sum (fun _ d => d) (graph edges) (Finset.Ico 0 n)
    (-2147483648) hkeys le_sum (search P src) with ⟨k, -, hzero, hpos⟩
  have hcount (s : State σ Int Int) (x : Search σ Int Int) (h : Models (Below n) s x) :
      P.count s.q = P.count x.queue := congrArg P.count h.queue
  rcases Rounds.whileLoop_eq hcount (fun _ _ => dequeue_models P (graph_below hin) hgraph)
    (count_next (graph edges)) hmodels hzero hpos with ⟨t, hruns, hend, hwhile⟩
  refine ⟨s, m, k, t, hs, hm, hruns, hend, hpos, (hcount _ _ hend).trans hzero,
    fun fuel hfuel => ?_⟩
  unfold dijkstra
  rw [hs, hm]
  change (Rounds.whileLoop _ _ fuel s >>= _) = _
  rw [hwhile fuel hfuel]
  rfl

/-- The loop takes finitely many entries out, whatever the weights are and however
    the queue decides between entries of one priority. -/
theorem dijkstra_terminates (hin : EdgesIn n edges) (src : Int) :
    ∃ s m k t, initial P n src = .ok s ∧ nextMap edges = .ok m ∧
      Rounds.Runs (fun s => P.count s.q) (dequeue P m) s k t ∧ P.count t.q = 0 ∧
      ∀ fuel, k < fuel → dijkstra P fuel n edges src = .ok (some t.res) := by
  rcases dijkstra_run P hin src with ⟨s, m, k, t, hs, hm, hruns, -, -, hzero, hresult⟩
  exact ⟨s, m, k, t, hs, hm, hruns, hzero, hresult⟩

/-- Two vertices on a cycle of negative length. -/
def negativeCycle : List (List Int) :=
  [[0, 1, -1], [1, 0, -1]]

theorem dijkstra_terminates_negativeCycle :
    ∃ s m k t, initial (sortedQueue Int) 2 0 = .ok s ∧ nextMap negativeCycle = .ok m ∧
      Rounds.Runs (fun s => (sortedQueue Int).count s.q) (dequeue (sortedQueue Int) m) s k t ∧
      (sortedQueue Int).count t.q = 0 ∧
      ∀ fuel, k < fuel → dijkstra (sortedQueue Int) fuel 2 negativeCycle 0 = .ok (some t.res) := by
  refine dijkstra_terminates (sortedQueue Int) (fun d hd => ?_) 0
  simp only [negativeCycle, List.mem_cons, List.not_mem_nil, or_false] at hd
  rcases hd with rfl | rfl
  all_goals exact ⟨_, _, _, [], rfl, by decide, by decide, by decide⟩

end Numbered

end DijkstraSample

end BlogSample
