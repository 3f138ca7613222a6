import BlogSample.Theory.DepthFirst
import Mathlib.Order.Lattice.Nat

/-!
# Breadth-First Search

A search with a queue. A vertex is done when it has been taken from the queue,
and its successors that are neither done nor queued are queued then.

The vertices that are done and those in the queue, one list after the other, are
in order of their distance from the start, and all of them are at most one edge
further from it than the head of the queue is. A vertex that is not among them
is further away than the head: a path to it leaves them somewhere, which it can
only do from the queue. So what is queued next belongs at the end.

## Main definitions

* `Walk`, `distance`: Paths by their number of edges.
* `fresh`: What is queued with a vertex.
* `Found`: The search so far.

## Theorems

* `Found.lt_of_walk`: What is not found yet is further away than the head.
* `found_start`, `Found.step`: The search begins, and takes a vertex.
* `Found.mem_iff`: What is done in the end.
-/

namespace BlogSample

namespace BreadthFirst

open DepthFirst

universe u

section

variable {V : Type u} (succ : V → List V) (s : V)

/-- There is a path with a number of edges. -/
inductive Walk : ℕ → V → Prop
  | nil : Walk 0 s
  | snoc (n : ℕ) (u v : V) : Walk n u → v ∈ succ u → Walk (n + 1) v

/-- The number of edges of a shortest path. -/
noncomputable def distance (v : V) : ℕ :=
  sInf {n | Walk succ s n v}

end

section Walks

variable {V : Type u} {succ : V → List V} {s u v : V}

theorem exists_walk (h : Reach succ s v) : ∃ n, Walk succ s n v := by
  induction h with
  | refl => exact ⟨0, .nil⟩
  | tail _ hv ih =>
      rcases ih with ⟨n, ih⟩
      exact ⟨n + 1, ih.snoc n _ _ hv⟩

theorem walk_distance (h : Reach succ s v) : Walk succ s (distance succ s v) v :=
  Nat.sInf_mem (exists_walk h)

theorem distance_le {n : ℕ} (h : Walk succ s n v) : distance succ s v ≤ n :=
  Nat.sInf_le h

theorem distance_le_succ (h : Reach succ s u) (hv : v ∈ succ u) :
    distance succ s v ≤ distance succ s u + 1 :=
  distance_le ((walk_distance h).snoc _ u v hv)

end Walks

variable {V : Type u} [DecidableEq V]

/-- The vertices of a list that are not found yet, once each. -/
def fresh (seen : List V) : List V → List V
  | [] => []
  | w :: ws => if w ∈ seen then fresh seen ws else w :: fresh (seen ++ [w]) ws

/-- The search so far: no vertex is found twice, the successors of those that are done are
    found, and the vertices are in order of distance, with no gap after the head. -/
structure Found (succ : V → List V) (s : V) (done queue : List V) : Prop where
  nodup : (done ++ queue).Nodup
  start : s ∈ done ++ queue
  reach : ∀ v ∈ done ++ queue, Reach succ s v
  closed : ∀ v ∈ done, ∀ w ∈ succ v, w ∈ done ++ queue
  sorted : (done ++ queue).Pairwise (fun v w => distance succ s v ≤ distance succ s w)
  span : ∀ v ∈ queue.head?, ∀ w ∈ done ++ queue, distance succ s w ≤ distance succ s v + 1

theorem mem_fresh {seen ws : List V} {x : V} : x ∈ fresh seen ws ↔ x ∈ ws ∧ x ∉ seen := by
  induction ws generalizing seen with
  | nil => exact iff_of_false List.not_mem_nil (fun h => List.not_mem_nil h.1)
  | cons w ws ih =>
      rw [fresh, List.mem_cons]
      by_cases hw : w ∈ seen
      · rw [if_pos hw, ih]
        constructor
        · exact fun h => ⟨.inr h.1, h.2⟩
        · rintro ⟨rfl | hx, hseen⟩
          · exact absurd hw hseen
          · exact ⟨hx, hseen⟩
      -- The vertex counts as found for the rest of the list.
      · rw [if_neg hw, List.mem_cons, ih, List.mem_append, List.mem_singleton, not_or]
        constructor
        · rintro (rfl | ⟨hx, hseen, -⟩)
          · exact ⟨.inl rfl, hw⟩
          · exact ⟨.inr hx, hseen⟩
        · rintro ⟨hx, hseen⟩
          by_cases heq : x = w
          · exact .inl heq
          · exact .inr ⟨hx.resolve_left heq, hseen, heq⟩

theorem nodup_append_fresh {seen ws : List V} (h : seen.Nodup) : (seen ++ fresh seen ws).Nodup := by
  induction ws generalizing seen with
  | nil => rwa [fresh, List.append_nil]
  | cons w ws ih =>
      rw [fresh]
      by_cases hw : w ∈ seen
      · rw [if_pos hw]
        exact ih h
      · rw [if_neg hw, List.append_cons]
        refine ih (List.nodup_append.mpr ⟨h, List.nodup_singleton w, fun a ha b hb hab => hw ?_⟩)
        rwa [← List.mem_singleton.mp hb, ← hab]

variable {succ : V → List V} {s v : V} {done queue : List V}

omit [DecidableEq V] in
/-- Nothing is done, and the start is queued. -/
theorem found_start (succ : V → List V) (s : V) : Found succ s [] [s] where
  nodup := List.nodup_singleton s
  start := List.mem_cons_self
  reach := fun v hv => by
    rw [List.mem_singleton.mp hv]
  closed := fun v hv => absurd hv List.not_mem_nil
  sorted := List.pairwise_singleton _ s
  span := fun v hv w hw => by
    rw [List.mem_singleton.mp hw, ← Option.mem_some.mp hv]
    exact Nat.le_succ _

omit [DecidableEq V] in
/-- A path to a vertex that is not found is longer than those to the head of the queue. -/
theorem Found.lt_of_walk (h : Found succ s done (v :: queue)) {n : ℕ} {w : V}
    (hw : w ∉ done ++ v :: queue) (hwalk : Walk succ s n w) : distance succ s v < n := by
  -- The last edge of the path that comes from a found vertex decides.
  induction hwalk with
  | nil => exact absurd h.start hw
  | snoc n u w hu hmem ih =>
      by_cases hfound : u ∈ done ++ v :: queue
      · rcases List.mem_append.mp hfound with hdone | hqueue
        · exact absurd (h.closed u hdone w hmem) hw
        -- The path leaves what is found from the queue, behind the head or at it.
        · have hsorted := (List.pairwise_append.mp h.sorted).2.1
          have hhead : distance succ s v ≤ distance succ s u := by
            rcases List.mem_cons.mp hqueue with rfl | hqueue
            · exact Nat.le_refl _
            · exact (List.pairwise_cons.mp hsorted).1 u hqueue
          exact Nat.lt_succ_of_le (hhead.trans (distance_le hu))
      · exact (ih hfound).trans (Nat.lt_succ_self n)

theorem Found.distance_fresh (h : Found succ s done (v :: queue)) {w : V}
    (hw : w ∈ fresh (done ++ v :: queue) (succ v)) :
    Reach succ s w ∧ distance succ s w = distance succ s v + 1 := by
  rcases mem_fresh.mp hw with ⟨hsucc, hnew⟩
  have hv := h.reach v (List.mem_append_right _ List.mem_cons_self)
  have hreach : Reach succ s w := hv.tail hsucc
  exact ⟨hreach, Nat.le_antisymm (distance_le_succ hv hsucc)
    (h.lt_of_walk hnew (walk_distance hreach))⟩

/-- A vertex is taken, and what it leads to is queued. -/
theorem Found.step (h : Found succ s done (v :: queue)) :
    Found succ s (done ++ [v]) (queue ++ fresh (done ++ v :: queue) (succ v)) := by
  have heq : done ++ [v] ++ (queue ++ fresh (done ++ v :: queue) (succ v)) =
      (done ++ v :: queue) ++ fresh (done ++ v :: queue) (succ v) := by
    simp only [List.append_assoc, List.cons_append, List.nil_append]
  -- Behind the head everything is one edge further away at most, and what is queued now is so.
  have hhead := h.span v rfl
  have hle (w : V) (hw : w ∈ (done ++ v :: queue) ++ fresh (done ++ v :: queue) (succ v)) :
      distance succ s w ≤ distance succ s v + 1 := by
    rcases List.mem_append.mp hw with hw | hw
    · exact hhead w hw
    · exact Nat.le_of_eq (h.distance_fresh hw).2
  refine ⟨?_, ?_, fun w hw => ?_, fun w hw x hx => ?_, ?_, fun w hw x hx => ?_⟩
  · rw [heq]
    exact nodup_append_fresh h.nodup
  · rw [heq]
    exact List.mem_append_left _ h.start
  · rw [heq] at hw
    rcases List.mem_append.mp hw with hw | hw
    · exact h.reach w hw
    · exact (h.distance_fresh hw).1
  -- The successors of the vertex are found already, or are queued with it.
  · rw [heq]
    rcases List.mem_append.mp hw with hw | hw
    · exact List.mem_append_left _ (h.closed w hw x hx)
    · rw [List.mem_singleton.mp hw] at hx
      by_cases hfound : x ∈ done ++ v :: queue
      · exact List.mem_append_left _ hfound
      · exact List.mem_append_right _ (mem_fresh.mpr ⟨hx, hfound⟩)
  -- What is queued now is all at one distance, and that is the largest one.
  · rw [heq, List.pairwise_append]
    refine ⟨h.sorted, List.pairwise_of_forall_mem_list (fun x hx y hy => ?_), fun x hx y hy => ?_⟩
    · rw [(h.distance_fresh hx).2, (h.distance_fresh hy).2]
    · rw [(h.distance_fresh hy).2]
      exact hhead x hx
  -- The new head is no nearer to the start than the old one was.
  · rw [heq] at hx
    have hnear : distance succ s v ≤ distance succ s w := by
      rcases List.mem_append.mp (List.mem_of_mem_head? hw) with hqueue | hfresh
      · have hsorted := (List.pairwise_append.mp h.sorted).2.1
        exact (List.pairwise_cons.mp hsorted).1 w hqueue
      · rw [(h.distance_fresh hfresh).2]
        exact Nat.le_succ _
    exact (hle x hx).trans (Nat.succ_le_succ hnear)

omit [DecidableEq V] in
/-- When the queue is empty, everything is done that can be reached. -/
theorem Found.mem_iff (h : Found succ s done []) {w : V} : w ∈ done ↔ Reach succ s w := by
  have happend : done ++ [] = done := List.append_nil done
  constructor
  · intro hw
    exact h.reach w (by rwa [happend])
  · intro hw
    induction hw with
    | refl => exact happend ▸ h.start
    | tail _ hmem ih => exact happend ▸ h.closed _ ih _ hmem

end BreadthFirst

end BlogSample
