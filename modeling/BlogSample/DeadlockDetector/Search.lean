import BlogSample.DeadlockDetector.Graph
import Mathlib.Data.Finset.Card
import Mathlib.Data.Finset.Range

/-!
# The Search for a Cycle

`check_dead_lock` and the depth-first search under it, with the globals they
leave behind. The search goes from vertex to vertex by `search_vertex`, whose
`-1` would be an index outside the list, and pushes each index on `path`.

A graph that is `Closed` has a vertex for the target of each edge. In such a
graph the search stays within all its arrays, whatever the globals were: each
call that goes on marks one more vertex, so the path is never longer than the
vertices are many. The recursion has no bound of its own in the code; it takes
fuel here, and the same count shows that it never runs out.

## Main definitions

* `Search`: The globals of the search.
* `dfs`, `searchForCycle`, `checkDeadLock`: The functions of the source.
* `Sized`: Every vertex is a thread, and every edge leads to one.
* `Closed`: Every edge leads to a vertex.
* `unseen`: The vertices that are not marked.

## Theorems

* `dfs_total`: One call of the search.
* `checkDeadLock_total`: The check stays within its arrays.
-/

namespace BlogSample

namespace DeadlockDetector

open VertexList

/-- The globals `visited`, `path`, `k` and `deadlock`, and what has been
    printed. -/
structure Search where
  visited : CArray Int MAX
  path : CArray Int (MAX + 1)
  k : Int
  deadlock : Int
  output : List (List Nat)

namespace Search

/-- `path[k++] = idx`. -/
def push (s : Search) (idx : Int) : Option Search := do
  let path ← s.path.write s.k idx
  pure { s with path := path, k := s.k + 1 }

/-- `print_deadlock()`. -/
def printDeadlock (g : VertexList) (s : Search) : Option Search := do
  let ids ← (List.range ((s.k - 1).toNat + 1)).mapM (fun (i : Nat) => do
    let idx ← s.path.read i
    let v ← g.list.read idx
    pure v.node.id)
  pure { s with output := s.output ++ [ids] }

/-- `DFS(idx)`. -/
def dfs (g : VertexList) : Nat → Search → Int → Option Search
  | 0, _, _ => none
  | fuel + 1, s, idx => do
      let ver ← g.list.read idx
      let seen ← s.visited.read idx
      if seen = 1 then do
        let s ← s.push idx
        let s ← printDeadlock g s
        pure { s with deadlock := 1 }
      else do
        let visited ← s.visited.write idx 1
        let s ← push { s with visited := visited } idx
        ver.next.foldlM (fun s n => do
          let j ← g.searchVertex n
          let s ← dfs g fuel s j
          pure { s with k := s.k - 1 }) s

/-- One round of the loop of `search_for_cycle`: unmark the other vertices,
    clear the path behind the first one, and search from the next node. -/
def searchFrom (g : VertexList) (idx : Nat) (s : Search) (n : SourceNode) : Option Search := do
  let visited ← s.visited.fill ((List.range g.num.toNat).filter (· ≠ idx)) 0
  let path ← s.path.fill ((List.range MAX).map (· + 1)) (-1)
  let j ← g.searchVertex n
  dfs g (MAX + 1) { s with visited := visited, path := path, k := 1 } j

/-- `search_for_cycle(idx)`. -/
def searchForCycle (g : VertexList) (s : Search) (idx : Nat) : Option Search := do
  let ver ← g.list.read idx
  let visited ← s.visited.write idx 1
  let s ← push { s with visited := visited, k := 0 } idx
  ver.next.foldlM (searchFrom g idx) s

/-- `check_dead_lock()`. Once a deadlock is found the loop is left. -/
def checkDeadLock (g : VertexList) (s : Search) : Option Search :=
  (List.range g.num.toNat).foldlM
    (fun s i => if s.deadlock = 1 then pure s else searchForCycle g s i)
    { s with deadlock := 0 }

end Search

/-- Every vertex is one of the threads, and every edge leads to a vertex. -/
structure Sized (threads : Finset Nat) (g : VertexList) : Prop where
  wf : g.Wf
  num_nonneg : 0 ≤ g.num
  mem : ∀ x, g.HasVertex x → x ∈ threads
  target : ∀ a b, g.Edge a b → g.HasVertex b

/-- Every edge leads to a vertex that `search_vertex` finds. -/
structure Closed (g : VertexList) : Prop where
  num_le : g.num ≤ MAX
  target : ∀ i : Nat, (i : Int) < g.num → ∀ n ∈ (g.list.cell i).next,
    ∃ j : Nat, g.searchVertex n = some (j : Int) ∧ (j : Int) < g.num

theorem Sized.closed {threads : Finset Nat} {g : VertexList} (hg : Sized threads g) :
    Closed g := by
  refine ⟨hg.wf.num_le, fun i hi n hn => ?_⟩
  have hproc : n = process n.id := by
    rw [process, ← hg.wf.next i hi n hn]
  rcases hg.target _ _ ⟨i, hi, rfl, n, hn, rfl⟩ with ⟨j, hj, hid⟩
  refine ⟨j, ?_, hj⟩
  rw [hproc, ← hid]
  exact searchVertex_of_lt hg.wf hj

namespace Search

/-- The vertices that are not marked. -/
def unseen (g : VertexList) (s : Search) : Finset Nat :=
  (Finset.range g.num.toNat).filter (fun i => s.visited.cell i ≠ 1)

/-- The path so far consists of vertices. -/
structure OnPath (g : VertexList) (s : Search) : Prop where
  nonneg : 0 ≤ s.k
  cell : ∀ i : Nat, (i : Int) < s.k → ∃ j : Nat, s.path.cell i = j ∧ (j : Int) < g.num

section Total

variable {g : VertexList} (hg : Closed g)
include hg

theorem lt_max {i : Nat} (hi : (i : Int) < g.num) : i < MAX := by
  have := hg.num_le
  omega

omit hg in
/-- Pushing on a path that is not longer than the list. -/
theorem push_eq {s : Search} (hnn : 0 ≤ s.k) (hk : s.k ≤ MAX) (i : Nat) :
    s.push i = some { s with path := s.path.set s.k.toNat i, k := s.k + 1 } := by
  have hkn : ((s.k.toNat : Nat) : Int) = s.k := by omega
  have hwrite := CArray.write_of_lt s.path (i := s.k.toNat) (by omega) (i : Int)
  rw [hkn] at hwrite
  rw [push, hwrite]
  rfl

omit hg in
theorem onPath_push {s : Search} (hs : OnPath g s) {i : Nat} (hi : (i : Int) < g.num) :
    OnPath g { s with path := s.path.set s.k.toNat i, k := s.k + 1 } := by
  have hnn := hs.nonneg
  refine ⟨by change 0 ≤ s.k + 1; omega, fun l hl => ?_⟩
  have hl' : (l : Int) < s.k + 1 := hl
  by_cases hlk : l = s.k.toNat
  · exact ⟨i, by rw [hlk]; exact CArray.cell_set_self .., hi⟩
  · rcases hs.cell l (by omega) with ⟨j, hj, hlt⟩
    exact ⟨j, by rw [← hj]; exact CArray.cell_set_of_ne _ hlk _, hlt⟩

/-- Printing a path that is not empty. -/
theorem printDeadlock_total {s : Search} (hs : OnPath g s) (hpos : 0 < s.k)
    (hk : s.k ≤ MAX + 1) : ∃ out, printDeadlock g s = some { s with output := out } := by
  -- Every index on the path is a vertex, so every read succeeds.
  have hids : ∃ ids, (List.range ((s.k - 1).toNat + 1)).mapM (fun (i : Nat) => do
      let idx ← s.path.read i
      let v ← g.list.read idx
      pure v.node.id) = some ids := by
    refine mapM_total _ (fun i hi => ?_)
    have hi' := List.mem_range.mp hi
    rcases hs.cell i (by omega) with ⟨j, hj, hlt⟩
    refine ⟨(g.list.cell j).node.id, ?_⟩
    rw [CArray.read_of_lt s.path (by omega), hj]
    change (g.list.read (j : Int) >>= fun v => pure v.node.id) = _
    rw [CArray.read_of_lt g.list (lt_max hg hlt)]
    rfl
  rcases hids with ⟨ids, hids⟩
  refine ⟨s.output ++ [ids], ?_⟩
  rw [printDeadlock, hids]
  rfl

omit hg in
/-- Marking a vertex that was not. -/
theorem unseen_mark {s t : Search} {i : Nat} (hi : (i : Int) < g.num)
    (hseen : s.visited.cell i ≠ 1) (ht : t.visited = s.visited.set i 1) :
    (unseen g t).card + 1 = (unseen g s).card ∧ unseen g t ⊆ unseen g s := by
  have hmem : i ∈ unseen g s :=
    Finset.mem_filter.mpr ⟨Finset.mem_range.mpr (by omega), hseen⟩
  -- Exactly the vertex that is marked leaves the set.
  have heq : unseen g t = (unseen g s).erase i := by
    ext j
    rw [Finset.mem_erase, unseen, unseen, Finset.mem_filter, Finset.mem_filter, ht]
    by_cases hj : j = i
    · subst hj
      rw [CArray.cell_set_self]
      exact iff_of_false (fun h => h.2 rfl) (fun h => h.1 rfl)
    · rw [CArray.cell_set_of_ne _ hj]
      exact ⟨fun h => ⟨hj, h⟩, fun h => h.2⟩
  rw [heq]
  exact ⟨Finset.card_erase_add_one hmem, Finset.erase_subset i _⟩

/-- What a call leaves behind: one more index on the path, on top of what
    was there, and no vertex unmarked. -/
structure Walked (g : VertexList) (s t : Search) : Prop where
  onPath : OnPath g t
  k : t.k = s.k + 1
  below : ∀ l : Nat, (l : Int) < s.k → t.path.cell l = s.path.cell l
  unseen : unseen g t ⊆ unseen g s

/-- What a call keeps from one of its edges to the next. -/
structure Level (g : VertexList) (s t : Search) : Prop where
  onPath : OnPath g t
  k : t.k = s.k
  below : ∀ l : Nat, (l : Int) < s.k → t.path.cell l = s.path.cell l
  unseen : unseen g t ⊆ unseen g s

omit hg in
/-- After the call for an edge the index it pushed is dropped. -/
theorem Level.walked {s t u : Search} (ht : Level g s t) (hu : Walked g t u) :
    Level g s { u with k := u.k - 1 } := by
  -- The arrays are those the call left, and `k` is one less.
  have htk := ht.k
  have huk := hu.k
  have hnn := ht.onPath.nonneg
  refine ⟨⟨?_, fun l hl => ?_⟩, ?_, fun l hl => ?_, hu.unseen.trans ht.unseen⟩
  · change 0 ≤ u.k - 1
    omega
  · have hl' : (l : Int) < u.k - 1 := hl
    exact hu.onPath.cell l (by omega)
  · change u.k - 1 = s.k
    omega
  · exact (hu.below l (by omega)).trans (ht.below l hl)

/-- A call for a vertex that is marked. -/
theorem dfs_of_seen {s : Search} {i : Nat} (hi : (i : Int) < g.num)
    (hseen : s.visited.cell i = 1) (fuel : Nat) :
    dfs g (fuel + 1) s i = (s.push i).bind (fun s =>
      (printDeadlock g s).bind (fun s => some { s with deadlock := 1 })) := by
  have hlt := lt_max hg hi
  rw [dfs, CArray.read_of_lt g.list hlt, CArray.read_of_lt s.visited hlt]
  exact if_pos hseen

/-- A call for a vertex that is not. -/
theorem dfs_of_new {s : Search} {i : Nat} (hi : (i : Int) < g.num)
    (hnew : s.visited.cell i ≠ 1) (fuel : Nat) :
    dfs g (fuel + 1) s i = (push { s with visited := s.visited.set i 1 } i).bind (fun s =>
      (g.list.cell i).next.foldlM (fun s n => (g.searchVertex n).bind (fun j =>
        (dfs g fuel s j).bind (fun s => some { s with k := s.k - 1 }))) s) := by
  have hlt := lt_max hg hi
  rw [dfs, CArray.read_of_lt g.list hlt, CArray.read_of_lt s.visited hlt,
    CArray.write_of_lt s.visited hlt]
  exact if_neg hnew

/-- A call stays within the arrays as long as the path and the vertices that
    are not marked together fit into the list. -/
theorem dfs_total (fuel : Nat) :
    ∀ (s : Search) (i : Nat), (i : Int) < g.num → OnPath g s →
      s.k + (unseen g s).card ≤ MAX → (unseen g s).card < fuel →
      ∃ t, dfs g fuel s i = some t ∧ Walked g s t := by
  induction fuel with
  | zero => exact fun s i _ _ _ h => absurd h (Nat.not_lt_zero _)
  | succ fuel ih =>
      intro s i hi hs hk hfuel
      have hlt := lt_max hg hi
      have hnn := hs.nonneg
      -- The push writes above what is on the path.
      have hbelow : ∀ l : Nat, (l : Int) < s.k →
          (s.path.set s.k.toNat (i : Int)).cell l = s.path.cell l :=
        fun l hl => CArray.cell_set_of_ne _ (by omega) _
      by_cases hseen : s.visited.cell i = 1
      -- A vertex seen before ends the walk.
      · have hpath := onPath_push hs hi
        rcases printDeadlock_total hg hpath (by change 0 < s.k + 1; omega)
          (by change s.k + 1 ≤ _; omega) with ⟨out, hout⟩
        refine ⟨⟨s.visited, s.path.set s.k.toNat i, s.k + 1, 1, out⟩, ?_,
          ⟨hpath.nonneg, hpath.cell⟩, rfl, hbelow, Finset.Subset.refl _⟩
        rw [dfs_of_seen hg hi hseen, push_eq hnn (by omega), Option.bind_some, hout]
        rfl
      -- A new one is marked, and the search goes on along its edges.
      · have hs₁ : OnPath g { s with visited := s.visited.set i 1 } := ⟨hs.nonneg, hs.cell⟩
        obtain ⟨t, ht⟩ : ∃ t : Search, t = { s with
          visited := s.visited.set i 1, path := s.path.set s.k.toNat i, k := s.k + 1 } := ⟨_, rfl⟩
        have hpush : push { s with visited := s.visited.set i 1 } i = some t := by
          rw [push_eq (s := { s with visited := s.visited.set i 1 }) hnn
            (by change s.k ≤ _; omega), ht]
        have hpath : OnPath g t := ht ▸ onPath_push hs₁ hi
        have htk : t.k = s.k + 1 := by rw [ht]
        rcases unseen_mark (g := g) (t := t) hi hseen (by rw [ht]) with ⟨hcard, hsub⟩
        -- Each edge of the vertex is a call with less fuel and one vertex less.
        have hround : ∀ u, Level g t u → ∀ n ∈ (g.list.cell i).next, ∃ v,
            ((g.searchVertex n).bind (fun j =>
              (dfs g fuel u j).bind (fun s => some { s with k := s.k - 1 }))) = some v ∧
            Level g t v := by
          intro u hu n hn
          have huk := hu.k
          have hucard := Finset.card_le_card hu.unseen
          rcases hg.target i hi n hn with ⟨j, hj, hjlt⟩
          rcases ih u j hjlt hu.onPath (by omega) (by omega) with ⟨v, hv, hwalk⟩
          refine ⟨{ v with k := v.k - 1 }, ?_, hu.walked hwalk⟩
          rw [hj, Option.bind_some, hv]
          rfl
        rcases foldlM_total (Level g t) _ hround t
          ⟨hpath, rfl, fun _ _ => rfl, Finset.Subset.refl _⟩ with ⟨u, hu, hlevel⟩
        refine ⟨u, ?_, hlevel.onPath, hlevel.k.trans htk, fun l hl => ?_,
          hlevel.unseen.trans hsub⟩
        · rw [dfs_of_new hg hi hseen, hpush]
          exact hu
        · rw [hlevel.below l (by omega), ht]
          exact hbelow l hl

/-- One round of the loop over the edges of a vertex. -/
theorem searchFrom_total {i : Nat} (hi : (i : Int) < g.num) {s : Search}
    (hpath : s.path.cell 0 = i) (hseen : s.visited.cell i = 1) {n : SourceNode}
    (hn : n ∈ (g.list.cell i).next) :
    ∃ t, searchFrom g i s n = some t ∧ t.path.cell 0 = i ∧ t.visited.cell i = 1 := by
  have hnum := hg.num_le
  have hi' : i < g.num.toNat := by omega
  -- The two loops that clear the marks and the path stay in the arrays.
  rcases CArray.fill_total 0 ((List.range g.num.toNat).filter (· ≠ i)) s.visited (by
    intro j hj
    have := List.mem_range.mp (List.mem_filter.mp hj).1
    omega) with ⟨visited, hv, hvcell⟩
  rcases CArray.fill_total (-1) ((List.range MAX).map (· + 1)) s.path (by
    intro j hj
    rcases List.mem_map.mp hj with ⟨l, hl, rfl⟩
    have := List.mem_range.mp hl
    omega) with ⟨path, hp, hpcell⟩
  rcases hg.target i hi n hn with ⟨j, hj, hjlt⟩
  obtain ⟨u, hu⟩ : ∃ u : Search, u = { s with visited := visited, path := path, k := 1 } :=
    ⟨_, rfl⟩
  -- Neither touches the vertex the search started from.
  have huseen : u.visited.cell i = 1 := by
    rw [hu]
    change visited.cell i = 1
    rw [hvcell, if_neg (by simp), hseen]
  have hupath : u.path.cell 0 = i := by
    rw [hu]
    change path.cell 0 = i
    rw [hpcell, if_neg (by simp), hpath]
  have huk : u.k = 1 := by rw [hu]
  have honpath : OnPath g u := by
    refine ⟨by omega, fun l hl => ?_⟩
    obtain rfl : l = 0 := by omega
    exact ⟨i, hupath, hi⟩
  -- That vertex is marked, so the others are fewer than the fuel.
  have hcard : (unseen g u).card < g.num.toNat := by
    have hsub : unseen g u ⊆ (Finset.range g.num.toNat).erase i := by
      intro l hl
      rcases Finset.mem_filter.mp hl with ⟨hl, hne⟩
      refine Finset.mem_erase.mpr ⟨?_, hl⟩
      rintro rfl
      exact hne huseen
    have hle := Finset.card_le_card hsub
    rw [Finset.card_erase_of_mem (Finset.mem_range.mpr hi'), Finset.card_range] at hle
    omega
  -- The search goes on from there and leaves the first index alone.
  rcases dfs_total hg (MAX + 1) u j hjlt honpath (by omega) (by omega) with ⟨t, ht, hwalk⟩
  refine ⟨t, ?_, (hwalk.below 0 (by omega)).trans hupath, ?_⟩
  · simp only [searchFrom, hv, hp, hj, Option.bind_eq_bind, Option.bind_some, ← hu]
    exact ht
  · by_contra hne
    have hmem : i ∈ unseen g t := Finset.mem_filter.mpr ⟨Finset.mem_range.mpr hi', hne⟩
    exact (Finset.mem_filter.mp (hwalk.unseen hmem)).2 huseen

theorem searchForCycle_total {i : Nat} (hi : (i : Int) < g.num) (s : Search) :
    ∃ t, searchForCycle g s i = some t := by
  have hlt := lt_max hg hi
  obtain ⟨u, hu⟩ : ∃ u : Search, u = { s with
    visited := s.visited.set i 1, path := s.path.set 0 i, k := 1 } := ⟨_, rfl⟩
  rcases foldlM_total (fun t : Search => t.path.cell 0 = i ∧ t.visited.cell i = 1) _
    (fun t ht n hn => searchFrom_total hg hi ht.1 ht.2 hn) u
    (by rw [hu]; exact ⟨CArray.cell_set_self .., CArray.cell_set_self ..⟩) with ⟨t, ht, -⟩
  have hpush : push { s with visited := s.visited.set i 1, k := 0 } i = some u := by
    rw [push_eq (s := { s with visited := s.visited.set i 1, k := 0 }) (Int.le_refl 0)
      (Int.natCast_nonneg MAX), hu]
    rfl
  refine ⟨t, ?_⟩
  simp only [searchForCycle, CArray.read_of_lt g.list hlt, CArray.write_of_lt s.visited hlt,
    hpush, Option.bind_eq_bind, Option.bind_some]
  exact ht

/-- The check stays within its arrays, whatever the globals are. -/
theorem checkDeadLock_total (s : Search) : ∃ t, checkDeadLock g s = some t := by
  -- A round either is skipped or searches from a vertex.
  have hround : ∀ t : Search, True → ∀ i ∈ List.range g.num.toNat,
      ∃ u, (if t.deadlock = 1 then pure t else searchForCycle g t i) = some u ∧ True := by
    intro t _ i hi
    have hi' := List.mem_range.mp hi
    by_cases hd : t.deadlock = 1
    · exact ⟨t, if_pos hd, trivial⟩
    · rcases searchForCycle_total hg (i := i) (by omega) t with ⟨u, hu⟩
      exact ⟨u, (if_neg hd).trans hu, trivial⟩
  rcases foldlM_total (fun _ => True) _ hround { s with deadlock := 0 } trivial with ⟨t, ht, -⟩
  exact ⟨t, ht⟩

end Total

end Search

end DeadlockDetector

end BlogSample
