import BlogSample.Theory.DepthFirst

/-!
# Depth-First Preorder

The order in which a depth-first search lists the vertices, each before what it
leads to. It goes on with the first new successor of the vertex that it has
listed last, or, if that one has no new successor, of the last vertex before it
that has one.

The search is a relation between what is listed before and after, for a list of
vertices to come to. It comes to the successors of a vertex one after the other,
and what it lists below one of them is closed when it comes to the next: all the
successors are listed. So the vertex whose successors it goes through is always
the last one that is not closed.

## Main definitions

* `Next`, `Ordered`: The order.
* `Lists`: The search, for a list of vertices.

## Theorems

* `Lists.spec`: What is listed.
* `Lists.unique`: One thing only is listed.
* `Lists.ordered`: It is listed in order.
* `Lists.of_start`: A search from a vertex.
-/

namespace BlogSample

namespace DepthFirstOrder

open DepthFirst

universe u

variable {V : Type u}

/-- The vertex that the search goes on with: it is the first new successor of the last vertex
    that has one. -/
def Next (succ : V → List V) (out : List V) (w : V) : Prop :=
  ∃ earlier u later a b, out = earlier ++ u :: later ∧
    (∀ x ∈ later, ∀ y ∈ succ x, y ∈ out) ∧
    succ u = a ++ w :: b ∧ (∀ y ∈ a, y ∈ out) ∧ w ∉ out

/-- The vertices are in the order in which the search from a vertex comes to them. -/
inductive Ordered (succ : V → List V) (s : V) : List V → Prop
  | start : Ordered succ s [s]
  | next (out : List V) (w : V) :
      Ordered succ s out → Next succ out w → Ordered succ s (out ++ [w])

/-- The search for a list of vertices, with what is listed before and after. -/
inductive Lists (succ : V → List V) : List V → List V → List V → Prop
  | nil (out : List V) : Lists succ [] out out
  | seen (i : V) (L out out' : List V) :
      i ∈ out → Lists succ L out out' → Lists succ (i :: L) out out'
  | new (i : V) (L out mid out' : List V) :
      i ∉ out → Lists succ (succ i) (out ++ [i]) mid → Lists succ L mid out' →
      Lists succ (i :: L) out out'

variable {succ : V → List V} {s : V} {L out out' : List V}

/-- What a search has listed. -/
structure Listed (succ : V → List V) (L out out' new : List V) : Prop where
  eq : out' = out ++ new
  nodup : out.Nodup → out'.Nodup
  mem : ∀ y ∈ L, y ∈ out'
  closed : ∀ x ∈ new, ∀ y ∈ succ x, y ∈ out'
  reach : ∀ x ∈ new, ∃ i ∈ L, Reach succ i x

/-- A vertex that is listed already adds nothing. -/
theorem Listed.seen {i : V} {new : List V} (hi : i ∈ out) (h : Listed succ L out out' new) :
    Listed succ (i :: L) out out' new where
  eq := h.eq
  nodup := h.nodup
  mem := fun y hy => by
    rcases List.mem_cons.mp hy with rfl | hy
    · rw [h.eq]
      exact List.mem_append_left _ hi
    · exact h.mem y hy
  closed := h.closed
  reach := fun x hx => by
    rcases h.reach x hx with ⟨j, hj, hreach⟩
    exact ⟨j, List.mem_cons_of_mem i hj, hreach⟩

/-- A new vertex is listed, then what its edges lead to, and then the rest. -/
theorem Listed.new {i : V} {mid below rest : List V} (hi : i ∉ out)
    (h : Listed succ (succ i) (out ++ [i]) mid below) (h' : Listed succ L mid out' rest) :
    Listed succ (i :: L) out out' (i :: below ++ rest) := by
  have hmid : ∀ y ∈ mid, y ∈ out' := fun y hy => by
    rw [h'.eq]
    exact List.mem_append_left _ hy
  -- First the vertex, then what is below it, then the rest of the list.
  refine ⟨?_, fun hnodup => h'.nodup (h.nodup ?_), fun y hy => ?_, fun x hx y hy => ?_,
    fun x hx => ?_⟩
  · rw [h'.eq, h.eq]
    simp only [List.append_assoc, List.cons_append, List.nil_append]
  · refine List.nodup_append.mpr ⟨hnodup, List.nodup_singleton i, fun a ha b hb hab => hi ?_⟩
    rwa [← List.mem_singleton.mp hb, ← hab]
  · rcases List.mem_cons.mp hy with rfl | hy
    · refine hmid y ?_
      rw [h.eq]
      exact List.mem_append_left _ (List.mem_append_right _ List.mem_cons_self)
    · exact h'.mem y hy
  · rcases List.mem_append.mp hx with hx | hx
    · rcases List.mem_cons.mp hx with rfl | hx
      · exact hmid y (h.mem y hy)
      · exact hmid y (h.closed x hx y hy)
    · exact h'.closed x hx y hy
  · rcases List.mem_append.mp hx with hx | hx
    · rcases List.mem_cons.mp hx with rfl | hx
      · exact ⟨x, List.mem_cons_self, .refl⟩
      · rcases h.reach x hx with ⟨j, hj, hreach⟩
        exact ⟨i, List.mem_cons_self, hreach.head hj⟩
    · rcases h'.reach x hx with ⟨j, hj, hreach⟩
      exact ⟨j, List.mem_cons_of_mem i hj, hreach⟩

theorem Lists.spec (h : Lists succ L out out') : ∃ new, Listed succ L out out' new := by
  induction h with
  | nil out =>
      refine ⟨[], (List.append_nil out).symm, id, fun y hy => ?_, fun x hx => ?_, fun x hx => ?_⟩
      · exact absurd hy List.not_mem_nil
      · exact absurd hx List.not_mem_nil
      · exact absurd hx List.not_mem_nil
  | seen i L out out' hi _ ih =>
      rcases ih with ⟨new, h⟩
      exact ⟨new, h.seen hi⟩
  | new i L out mid out' hi _ _ ih ih' =>
      rcases ih with ⟨below, h⟩
      rcases ih' with ⟨rest, h'⟩
      exact ⟨_, h.new hi h'⟩

/-- The search lists one thing only. -/
theorem Lists.unique {out'' : List V} (h : Lists succ L out out') (h' : Lists succ L out out'') :
    out' = out'' := by
  induction h generalizing out'' with
  | nil out =>
      cases h'
      rfl
  | seen i L out out' hi _ ih =>
      cases h' with
      | seen _ _ _ _ _ hrest => exact ih hrest
      | new _ _ _ _ _ hnew _ _ => exact absurd hi hnew
  | new i L out mid out' hi _ _ ih ih' =>
      cases h' with
      | seen _ _ _ _ hin _ => exact absurd hin hi
      | new _ _ _ mid' _ _ hbelow hrest =>
          rw [← ih hbelow] at hrest
          exact ih' hrest

/-- The successors that are left of a vertex are listed in order if the vertices after it are
    closed. -/
theorem Lists.ordered (h : Lists succ L out out') {earlier later a : List V} {u : V}
    (hout : out = earlier ++ u :: later) (hlater : ∀ x ∈ later, ∀ y ∈ succ x, y ∈ out)
    (hu : succ u = a ++ L) (ha : ∀ y ∈ a, y ∈ out) (hs : Ordered succ s out) :
    Ordered succ s out' := by
  induction h generalizing earlier later a u with
  | nil out => exact hs
  | seen i L out out' hi _ ih =>
      refine ih hout hlater (by rw [hu, List.append_cons]) (fun y hy => ?_) hs
      rcases List.mem_append.mp hy with hy | hy
      · exact ha y hy
      · rwa [List.mem_singleton.mp hy]
  | new i L out mid out' hi hbelow _ ih ih' =>
      -- The vertex whose successors are left is the last one that is not closed, and those before
      -- this successor are listed.
      have hnext : Next succ out i := ⟨earlier, u, later, a, L, hout, hlater, hu, ha, hi⟩
      rcases hbelow.spec with ⟨below, h⟩
      have hmid : mid = earlier ++ u :: (later ++ i :: below) := by
        rw [h.eq, hout]
        simp only [List.append_assoc, List.cons_append, List.nil_append]
      have hsub : ∀ y ∈ out, y ∈ mid := fun y hy => by
        rw [h.eq]
        exact List.mem_append_left _ (List.mem_append_left _ hy)
      have hi' : i ∈ mid := by
        rw [hmid]
        simp only [List.mem_append, List.mem_cons, true_or, or_true]
      -- What has been listed below the new vertex is closed, and so is the vertex itself.
      refine ih' hmid (fun x hx y hy => ?_) (by rw [hu, List.append_cons]) (fun y hy => ?_) ?_
      · rcases List.mem_append.mp hx with hx | hx
        · exact hsub y (hlater x hx y hy)
        · rcases List.mem_cons.mp hx with rfl | hx
          · exact h.mem y hy
          · exact h.closed x hx y hy
      · rcases List.mem_append.mp hy with hy | hy
        · exact hsub y (ha y hy)
        · rwa [List.mem_singleton.mp hy]
      -- Below the new vertex the search goes through the successors of that one.
      · exact ih rfl (fun x hx => absurd hx List.not_mem_nil) (List.nil_append _).symm
          (fun y hy => absurd hy List.not_mem_nil) (hs.next out i hnext)

/-- A search from a vertex lists what can be reached, each vertex once and in order. -/
theorem Lists.of_start (h : Lists succ [s] [] out) :
    out.Nodup ∧ (∀ v, v ∈ out ↔ Reach succ s v) ∧ Ordered succ s out := by
  rcases h.spec with ⟨new, hnew⟩
  have heq := hnew.eq
  rw [List.nil_append] at heq
  refine ⟨hnew.nodup List.nodup_nil, fun v => ⟨fun hv => ?_, fun hv => ?_⟩, ?_⟩
  · rcases hnew.reach v (heq ▸ hv) with ⟨j, hj, hreach⟩
    rwa [← List.mem_singleton.mp hj]
  -- Everything that is listed is closed, so no path leaves the list.
  · induction hv with
    | refl => exact hnew.mem s List.mem_cons_self
    | tail _ hmem ih => exact hnew.closed _ (heq ▸ ih) _ hmem
  · cases h with
    | seen _ _ _ _ hs => exact absurd hs List.not_mem_nil
    | new _ _ _ _ _ _ hbelow hrest =>
        cases hrest
        exact hbelow.ordered (show [s] = [] ++ s :: [] from rfl)
          (fun x hx => absurd hx List.not_mem_nil) (show succ s = [] ++ succ s from rfl)
          (fun y hy => absurd hy List.not_mem_nil) .start

end DepthFirstOrder

end BlogSample
