import BlogSample.DijkstraSample.Search

/-!
# The Distances of Numbered Vertices

What `Dijkstra(n, edges, src)` returns. As long as the paths without repetition
are shorter than `int.MaxValue`, every sum is exact, since an entry of the
queue is the length of such a path, and the result is the distance, or `-1`
for a vertex that is not reached.

Without that bound a sum may wrap around. It is negative then, and it is the
least distance so far, so the vertex keeps a negative distance. A sum that is
`int.MaxValue` is not taken for a distance. `dijkstra_meaningful_iff` says that
nothing else goes wrong.

## Main definitions

* `Marked`: The result of a vertex, given its distance.
* `Meaningful`: Results that tell which vertices are reached.
* `NoOverflow`: The sums that are compared for the next entry do not wrap.

## Theorems

* `dijkstra_correct`: The distances on short paths.
* `dijkstra_meaningful_iff`: When the result is meaningful.
-/

namespace BlogSample

namespace DijkstraSample

open DotNet Relaxation ShortestPath

variable {σ : Type} {P : PriorityQueue σ Int Int} {G : Graph Int} {src : Int}

/-! ### The results -/

/-- The result of a vertex is its distance, or `-1` if it has none. -/
def Marked (x : Search σ Int Int) : Prop :=
  ∀ v, x.label v ≤ maxValue ∧ x.mark v = if x.label v = maxValue then -1 else x.label v

theorem marked_search (src : Int) : Marked (search P src) := by
  intro v
  unfold search Relaxation.start
  simp only [Function.update_apply]
  by_cases hv : v = src
  · rw [if_pos hv, if_pos hv, if_neg (by decide)]
    exact ⟨by decide, rfl⟩
  · rw [if_neg hv, if_neg hv, if_pos rfl]
    exact ⟨Int.le_refl _, rfl⟩

theorem Marked.step {x : Search σ Int Int} (hx : Marked x) :
    Marked (Relaxation.next P sum (fun _ d => d) G x) := by
  intro v
  rcases hx v with ⟨hle, hmark⟩
  rcases @next_change σ Int Int _ P sum (fun _ d => d) G x v with
    ⟨hlabel, hsame⟩ | ⟨hlt, cur, hnew⟩
  · rw [hlabel, hsame]
    exact ⟨hle, hmark⟩
  · rw [hnew, if_neg (by omega)]
    exact ⟨by omega, rfl⟩

theorem marked_iterate (src : Int) (k : Nat) : Marked ((step P G)^[k] (search P src)) := by
  induction k with
  | zero => exact marked_search src
  | succ k ih =>
      rw [Function.iterate_succ_apply']
      exact ih.step

/-- The invariant as long as sums are exact. -/
theorem inv_iterate (hG : Nonneg G) {k : Nat}
    (hexact : ∀ j < k, Inv P G src maxValue ((step P G)^[j] (search P src)) →
      Exact P sum G ((step P G)^[j] (search P src))) :
    Inv P G src maxValue ((step P G)^[k] (search P src)) := by
  induction k with
  | zero => exact Inv.start (by decide) _
  | succ k ih =>
      have hk := ih (fun j hj => hexact j (Nat.lt_succ_of_lt hj))
      rw [Function.iterate_succ_apply']
      exact hk.next hG (hexact k (Nat.lt_succ_self k) hk)

section Results

variable {n : Int} {edges : List (List Int)}

/-- The result of a vertex when the loop has ended. -/
theorem result_eq {t : State σ Int Int} {x : Search σ Int Int} (ht : Models (Below n) t x)
    (hx : Marked x) {v : Int} (hv : Below n v) :
    t.res.tryGetValue v = some (if x.label v = maxValue then -1 else x.label v) := by
  rw [ht.res v hv, (hx v).2]

/-- When every vertex that is reached is reached by a short path, the results at the
    end of an exact run are the distances. -/
theorem result_spec (hG : Nonneg (graph edges)) {t : State σ Int Int} {x : Search σ Int Int}
    (ht : Models (Below n) t x) (hx : Marked x) (hinv : Inv P (graph edges) src maxValue x)
    (hzero : P.count t.q = 0)
    (hshort : ∀ v, Reachable (graph edges) src v →
      ∃ vs d, Path (graph edges) src v vs d ∧ d < maxValue) {v : Int} (hv : Below n v) :
    ∃ d, t.res.tryGetValue v = some d ∧
      (Reachable (graph edges) src v → IsDistance (graph edges) src v d) ∧
      (d = -1 ↔ ¬Reachable (graph edges) src v) := by
  rw [ht.queue] at hzero
  refine ⟨_, result_eq ht hx hv, ?_⟩
  by_cases htop : x.label v = maxValue
  -- No path is short enough, so there is none.
  · rw [if_pos htop]
    have hno : ¬Reachable (graph edges) src v := by
      intro hreach
      rcases hshort v hreach with ⟨vs, d, hpath, hd⟩
      have hle := (hinv.label_eq_top_iff hG hzero v).mp htop vs d hpath
      omega
    exact ⟨fun hreach => absurd hreach hno, iff_of_true rfl hno⟩
  · rw [if_neg htop]
    have hdistance := hinv.isDistance hG hzero (lt_of_le_of_ne (hinv.le_top v) htop)
    rcases hdistance.attained with ⟨vs, hpath⟩
    have hpos := hpath.length_nonneg hG
    exact ⟨fun _ => hdistance, iff_of_false (by omega) (not_not_intro ⟨vs, _, hpath⟩)⟩

/-- When the paths without repetition are shorter than `int.MaxValue`, the result is
    the distance of a vertex that is reached, and `-1` for the others. -/
theorem dijkstra_correct (P : PriorityQueue σ Int Int) (hin : EdgesIn n edges)
    (hG : Nonneg (graph edges)) (hsimple : SimpleBelow (graph edges) src maxValue) :
    ∃ k res, (∀ fuel, k < fuel → dijkstra P fuel n edges src = .ok (some res)) ∧
      ∀ v, 0 ≤ v → v < n → ∃ d, res.tryGetValue v = some d ∧
        (Reachable (graph edges) src v → IsDistance (graph edges) src v d) ∧
        (d = -1 ↔ ¬Reachable (graph edges) src v) := by
  rcases dijkstra_run P hin src with ⟨s, m, k, t, -, -, -, hmodels, -, hzero, hresult⟩
  refine ⟨k, t.res, hresult, fun v hv hvn => ?_⟩
  exact result_spec hG hmodels (marked_iterate src k)
    (inv_iterate hG (fun j _ hj => exact_of_simpleBelow hG hsimple hj)) hzero
    (fun u hu => hsimple.exists_path hG hu) ⟨hv, hvn⟩

/-- Two ways to the last of three vertices. -/
def twoWays : List (List Int) :=
  [[0, 1, 3], [0, 2, 5], [1, 2, 1], [1, 2, 2]]

theorem twoWays_edge {u v w : Int} (he : (v, w) ∈ graph twoWays u) :
    0 ≤ w ∧ u + 1 ≤ v ∧ v ≤ 2 ∧ w ≤ 5 := by
  rcases mem_graph.mp he with ⟨rest, hmem⟩
  simp only [twoWays, List.mem_cons, List.cons.injEq, List.not_mem_nil, or_false] at hmem
  omega

theorem twoWays_path {v : Int} {vs : List Int} {d : Int} (hpath : Path (graph twoWays) 0 v vs d) :
    d ≤ 5 * v ∧ v ≤ 2 := by
  induction hpath with
  | nil => exact ⟨by decide, by decide⟩
  | snoc u v vs d w _ he ih =>
      have hedge := twoWays_edge he
      omega

theorem twoWays_edgesIn : EdgesIn 3 twoWays := by
  intro d hd
  simp only [twoWays, List.mem_cons, List.not_mem_nil, or_false] at hd
  rcases hd with rfl | rfl | rfl | rfl
  all_goals exact ⟨_, _, _, [], rfl, by decide, by decide, by decide⟩

theorem dijkstra_correct_twoWays :
    ∃ k res, (∀ fuel, k < fuel → dijkstra (sortedQueue Int) fuel 3 twoWays 0 = .ok (some res)) ∧
      ∀ v, 0 ≤ v → v < 3 → ∃ d, res.tryGetValue v = some d ∧
        (Reachable (graph twoWays) 0 v → IsDistance (graph twoWays) 0 v d) ∧
        (d = -1 ↔ ¬Reachable (graph twoWays) 0 v) := by
  refine dijkstra_correct (sortedQueue Int) twoWays_edgesIn (fun u e he => (twoWays_edge he).1)
    (fun v vs d hpath _ => ?_)
  have hd := twoWays_path hpath
  unfold maxValue
  omega

/-- The results tell which vertices are reached. -/
def Meaningful (n : Int) (edges : List (List Int)) (src : Int) (res : Dictionary Int Int) :
    Prop :=
  ∀ v, 0 ≤ v → v < n → ∃ d, res.tryGetValue v = some d ∧
    (d = -1 ↔ ¬Reachable (graph edges) src v) ∧ (Reachable (graph edges) src v → 0 ≤ d)

/-- The sums that are compared for the next entry do not wrap around. -/
def NoOverflow (P : PriorityQueue σ Int Int) (m : Dictionary Int (List (Int × Int)))
    (s : State σ Int Int) : Prop :=
  ∀ cur val q, P.tryDequeue s.q = some ((cur, val), q) →
    ∀ e ∈ (m.tryGetValue cur).getD [], e.1 ∉ insert cur s.visited → val + e.2 ≤ maxValue

/-- No sum that is compared in the run wraps around. -/
def RunsWithoutOverflow (P : PriorityQueue σ Int Int) (n : Int) (edges : List (List Int))
    (src : Int) : Prop :=
  ∀ s m, initial P n src = .ok s → nextMap edges = .ok m → ∀ k t,
    Rounds.Runs (fun s => P.count s.q) (dequeue P m) s k t → NoOverflow P m t

/-- Where no sum wraps, sums are exact. -/
theorem NoOverflow.exact (hG : Nonneg G) {m : Dictionary Int (List (Int × Int))}
    (hm : ∀ u, (m.tryGetValue u).getD [] = G u) {s : State σ Int Int} {x : Search σ Int Int}
    (hs : Models (Below n) s x) (hx : Inv P G src maxValue x) (h : NoOverflow P m s) :
    Exact P sum G x := by
  intro cur val q hq e he hnew
  rw [← hs.queue] at hq
  have hle := h cur val q hq e (by rw [hm]; exact he) (by rw [hs.visited]; exact hnew)
  rw [hs.queue] at hq
  exact sum_eq (nonneg_of_tryDequeue hG hx hq).1 (hG cur e he) hle

/-- A sum that wraps leaves a vertex that is reached with a negative distance. -/
theorem label_neg_of_overflow (hG : Nonneg G) (hweights : ∀ u, ∀ e ∈ G u, e.2 ≤ maxValue)
    {x : Search σ Int Int} (hx : Inv P G src maxValue x) {cur val : Int} {q : σ}
    (hq : P.tryDequeue x.queue = some ((cur, val), q)) {e : Int × Int} (he : e ∈ G cur)
    (hnew : e.1 ∉ insert cur x.visited) (hover : maxValue < val + e.2) :
    (step P G x).label e.1 < 0 ∧ Reachable G src e.1 := by
  have hE := @expand_expanded σ Int Int _ P sum (fun _ d => d) G cur val { x with queue := q }
  have hrelaxed := hE.relaxed e he hnew
  have hval := (nonneg_of_tryDequeue hG hx hq).2
  have hneg := sum_neg (Int.le_of_lt hval) (hweights cur e he) hover
  rcases hx.extend hq he hnew with ⟨vs, hpath, -⟩
  refine ⟨?_, vs, _, hpath⟩
  unfold step next
  rw [hq]
  exact Int.lt_of_le_of_lt hrelaxed hneg

theorem weights_le (hin : EdgesIn n edges) (u : Int) : ∀ e ∈ graph edges u, e.2 ≤ maxValue := by
  intro e he
  rcases mem_graph.mp he with ⟨rest, hmem⟩
  rcases hin _ hmem with ⟨_, v, w, rest, heq, -, -, hw⟩
  cases heq
  exact hw.2

/-- When the result is meaningful, no sum has wrapped around. -/
theorem noOverflow_of_meaningful (hin : EdgesIn n edges) (hG : Nonneg (graph edges))
    {t u : State σ Int Int} {m : Dictionary Int (List (Int × Int))} {j k : Nat}
    (hm : ∀ u, (m.tryGetValue u).getD [] = graph edges u)
    (hu : Models (Below n) u ((step P (graph edges))^[j] (search P src)))
    (hinv : Inv P (graph edges) src maxValue ((step P (graph edges))^[j] (search P src)))
    (ht : Models (Below n) t ((step P (graph edges))^[k] (search P src)))
    (hzero : P.count t.q = 0) (h : Meaningful n edges src t.res) : NoOverflow P m u := by
  intro cur val q hq e he hnew
  by_contra hover
  rw [hu.queue] at hq
  rw [hm] at he
  rw [hu.visited] at hnew
  rw [ht.queue] at hzero
  -- An entry is taken out, so the run has not come to its end.
  have hj : j < k := by
    by_contra hkj
    rw [iterate_next_of_le (graph edges) hzero (Nat.not_lt.mp hkj)] at hq
    rw [P.count_tryDequeue hq] at hzero
    exact Nat.succ_ne_zero _ hzero
  rcases label_neg_of_overflow hG (weights_le hin) hinv hq he hnew (Int.not_le.mp hover) with
    ⟨hneg, hreach⟩
  -- Labels only decrease, so the negative one is never repaired.
  have hfinal : ((step P (graph edges))^[k] (search P src)).label e.1 < 0 := by
    refine Int.lt_of_le_of_lt (label_iterate_le (graph edges) (search P src) e.1 hj) ?_
    rw [Function.iterate_succ_apply']
    exact hneg
  have hbelow := graph_below hin cur e he
  rcases h e.1 hbelow.1 hbelow.2 with ⟨d, hd, -, hpos⟩
  rw [result_eq ht (marked_iterate src k) hbelow, if_neg (by unfold maxValue; omega)] at hd
  cases hd
  have hnonneg := hpos hreach
  omega

/-- When the result is meaningful, every vertex that is reached has a distance. -/
theorem exists_short_of_meaningful (hin : EdgesIn n edges) {t : State σ Int Int}
    {x : Search σ Int Int} (ht : Models (Below n) t x) (hx : Marked x)
    (hinv : Inv P (graph edges) src maxValue x) (h : Meaningful n edges src t.res) {v : Int}
    (hreach : Reachable (graph edges) src v) :
    ∃ vs d, Path (graph edges) src v vs d ∧ d < maxValue := by
  rcases hreach with ⟨vs, d, hpath⟩
  cases hpath with
  | nil => exact ⟨[src], 0, .nil, by decide⟩
  | snoc u v vs d w hpath he =>
      have hbelow := graph_below hin u _ he
      rcases h v hbelow.1 hbelow.2 with ⟨r, hr, -, hpos⟩
      have hr0 := hpos ⟨_, _, hpath.snoc u v vs d w he⟩
      rw [result_eq ht hx hbelow] at hr
      -- The result would be `-1` otherwise.
      have htop : x.label v ≠ maxValue := by
        intro htop
        rw [if_pos htop] at hr
        cases hr
        exact absurd hr0 (by decide)
      have hlt := lt_of_le_of_ne (hinv.le_top v) htop
      rcases hinv.path v hlt with ⟨vs', hpath'⟩
      exact ⟨vs', _, hpath', hlt⟩

/-- The result is meaningful if no sum in the run wraps around and every vertex that
    is reached is reached by a path shorter than `int.MaxValue`, and only then. -/
theorem dijkstra_meaningful_iff (P : PriorityQueue σ Int Int) (hin : EdgesIn n edges)
    (hG : Nonneg (graph edges)) (src : Int) :
    ∃ k res, (∀ fuel, k < fuel → dijkstra P fuel n edges src = .ok (some res)) ∧
      (Meaningful n edges src res ↔ RunsWithoutOverflow P n edges src ∧
        ∀ v, Reachable (graph edges) src v →
          ∃ vs d, Path (graph edges) src v vs d ∧ d < maxValue) := by
  rcases dijkstra_run P hin src with ⟨s, m, k, t, hs, hm, hruns, hmodels, -, hzero, hresult⟩
  have hgraph : ∀ u, (m.tryGetValue u).getD [] = graph edges u := by
    rcases nextMap_eq hin with ⟨m', hm', hgraph⟩
    rw [hm] at hm'
    cases hm'
    exact hgraph
  -- As long as the states of the run have no overflow, the invariant holds.
  have hinv {j : Nat} {u : State σ Int Int}
      (hu : Rounds.Runs (fun s => P.count s.q) (dequeue P m) s j u)
      (hno : ∀ i w, Rounds.Runs (fun s => P.count s.q) (dequeue P m) s i w →
        Inv P (graph edges) src maxValue ((step P (graph edges))^[i] (search P src)) →
        NoOverflow P m w) :
      Inv P (graph edges) src maxValue ((step P (graph edges))^[j] (search P src)) := by
    refine inv_iterate hG (fun i hi hx => ?_)
    rcases hu.upto (Nat.le_of_lt hi) with ⟨w, hw⟩
    exact (hno i w hw hx).exact hG hgraph (runs_models P hin hs hm hw) hx
  have hmarked := @marked_iterate σ P (graph edges) src k
  refine ⟨k, t.res, hresult, fun hmeaningful => ?_, fun ⟨hover, hshort⟩ => ?_⟩
  · have hno (i : Nat) (w : State σ Int Int)
        (hw : Rounds.Runs (fun s => P.count s.q) (dequeue P m) s i w)
        (hx : Inv P (graph edges) src maxValue ((step P (graph edges))^[i] (search P src))) :
        NoOverflow P m w :=
      noOverflow_of_meaningful hin hG hgraph (runs_models P hin hs hm hw) hx hmodels hzero
        hmeaningful
    refine ⟨fun s' m' hs' hm' i w hw => ?_, fun v hreach => ?_⟩
    · rw [hs] at hs'
      rw [hm] at hm'
      cases hs'
      cases hm'
      exact hno i w hw (hinv hw hno)
    · exact exists_short_of_meaningful hin hmodels hmarked (hinv hruns hno) hmeaningful hreach
  · have hx := hinv hruns (fun i w hw _ => hover s m hs hm i w hw)
    intro v hv hvn
    rcases result_spec hG hmodels hmarked hx hzero hshort ⟨hv, hvn⟩ with ⟨d, hd, hdist, hiff⟩
    refine ⟨d, hd, hiff, fun hreach => ?_⟩
    rcases (hdist hreach).attained with ⟨vs, hpath⟩
    exact hpath.length_nonneg hG

instance (m : Dictionary Int (List (Int × Int))) (s : State σ Int Int) :
    Decidable (NoOverflow P m s) :=
  match h : P.tryDequeue s.q with
  | none => isTrue (fun _ _ _ hq => by rw [h] at hq; cases hq)
  | some ((cur, val), _) =>
      decidable_of_iff
        (∀ e ∈ (m.tryGetValue cur).getD [], e.1 ∉ insert cur s.visited → val + e.2 ≤ maxValue)
        ⟨fun hall _ _ _ hq => by rw [h] at hq; cases hq; exact hall, fun hall => hall _ _ _ h⟩

/-- With short edges no sum wraps around. -/
theorem dijkstra_meaningful_twoWays :
    ∃ k res, (∀ fuel, k < fuel → dijkstra (sortedQueue Int) fuel 3 twoWays 0 = .ok (some res)) ∧
      Meaningful 3 twoWays 0 res := by
  rcases dijkstra_meaningful_iff (sortedQueue Int) twoWays_edgesIn
    (fun u e he => (twoWays_edge he).1) 0 with ⟨k, res, hres, hiff⟩
  refine ⟨k, res, hres, hiff.mpr ⟨fun s m hs hm k t hruns => ?_, fun v hreach => ?_⟩⟩
  -- The run is over after five entries of the queue.
  · have htest : (do
        let s ← initial (sortedQueue Int) 3 0
        let m ← nextMap twoWays
        pure (Rounds.always (fun s => (sortedQueue Int).count s.q) (dequeue (sortedQueue Int) m)
          (fun s => decide (NoOverflow (sortedQueue Int) m s)) 5 s)) =
        (Except.ok true : Except Exn Bool) := by
      decide +kernel
    rw [hs, hm] at htest
    have hall : Rounds.always (fun s => (sortedQueue Int).count s.q) (dequeue (sortedQueue Int) m)
        (fun s => decide (NoOverflow (sortedQueue Int) m s)) 5 s = true := Except.ok.inj htest
    have ht := Rounds.Runs.of_always 5 hall hruns
    exact of_decide_eq_true ht
  · rcases hreach with ⟨vs, d, hpath⟩
    refine ⟨vs, d, hpath, ?_⟩
    have hd := twoWays_path hpath
    unfold maxValue
    omega

/-- Two edges whose lengths have a sum that does not fit. -/
def farAway : List (List Int) :=
  [[0, 1, 2147483646], [1, 2, 5]]

theorem farAway_edgesIn : EdgesIn 3 farAway ∧ Nonneg (graph farAway) := by
  constructor
  · intro d hd
    simp only [farAway, List.mem_cons, List.not_mem_nil, or_false] at hd
    rcases hd with rfl | rfl
    all_goals exact ⟨_, _, _, [], rfl, by decide, by decide, by decide⟩
  · intro u e he
    rcases mem_graph.mp he with ⟨rest, hmem⟩
    simp only [farAway, List.mem_cons, List.cons.injEq, List.not_mem_nil, or_false] at hmem
    omega

/-- The sum wraps around, and the vertex that is reached has a negative result. -/
theorem dijkstra_not_meaningful :
    EdgesIn 3 farAway ∧ Nonneg (graph farAway) ∧ ∃ res,
      dijkstra (sortedQueue Int) 4 3 farAway 0 = .ok (some res) ∧
        res.tryGetValue 2 = some (-2147483645) ∧ ¬Meaningful 3 farAway 0 res := by
  refine ⟨farAway_edgesIn.1, farAway_edgesIn.2, _, rfl, by decide +kernel, fun h => ?_⟩
  have hreach : Reachable (graph farAway) 0 2 :=
    ((Reachable.refl (graph farAway) 0).step (List.mem_singleton_self (1, 2147483646))).step
      (List.mem_singleton_self (2, 5))
  rcases h 2 (by decide) (by decide) with ⟨d, hd, -, hpos⟩
  have hneg : d = -2147483645 := by
    have hres : some (-2147483645) = some d := hd
    exact (Option.some.inj hres).symm
  have hnonneg := hpos hreach
  omega

end Results

end DijkstraSample

end BlogSample
