import Mathlib.Data.List.Nodup

/-!
# Shortest Paths

Directed graphs whose edges have lengths, several edges between two vertices
being allowed. A path is given by its vertices and its length: a length alone
does not tell whether the path is simple, and vertices alone do not tell which
of several edges it takes.

## Main definitions

* `Graph`: The edges out of each vertex.
* `Path`: Paths from a vertex, with vertices and length.
* `TreePath`: The path back to the start that the vertices before each one give.
* `Reachable`: There is a path.
* `IsDistance`: The least length of a path.
* `SimpleBelow`: A bound of the paths without repetition.

## Theorems

* `Path.length_nonneg`, `Path.head`: The length and the last vertex of a path.
* `Path.exists_simple`: A path without its detours.
* `Path.le_of_closed`: Labels that no edge improves are no more than the
  length of any path.
-/

namespace BlogSample

namespace ShortestPath

universe u

/-- The edges out of each vertex, with their lengths. -/
abbrev Graph (V : Type u) := V → List (V × Int)

variable {V : Type u}

/-- The paths from a vertex, with their vertices from the last to the first and
    their lengths. -/
inductive Path (G : Graph V) (s : V) : V → List V → Int → Prop
  | nil : Path G s s [s] 0
  | snoc (u v : V) (vs : List V) (d w : Int) :
      Path G s u vs d → (v, w) ∈ G u → Path G s v (v :: vs) (d + w)

/-- The path that leads from a vertex back to the start by taking the vertex before
    each one, over the shortest of the edges between the two. -/
inductive TreePath (G : Graph V) (before : V → V) (s : V) : V → List V → Int → Prop
  | nil : TreePath G before s s [s] 0
  | snoc (u v : V) (vs : List V) (d w : Int) :
      TreePath G before s u vs d → before v = u → (v, w) ∈ G u →
      (∀ w', (v, w') ∈ G u → w ≤ w') → TreePath G before s v (v :: vs) (d + w)

/-- There is a path. -/
def Reachable (G : Graph V) (s v : V) : Prop :=
  ∃ vs d, Path G s v vs d

/-- The least length of a path. -/
structure IsDistance (G : Graph V) (s v : V) (d : Int) : Prop where
  attained : ∃ vs, Path G s v vs d
  least : ∀ vs d', Path G s v vs d' → d ≤ d'

/-- No edge has a negative length. -/
def Nonneg (G : Graph V) : Prop :=
  ∀ u, ∀ e ∈ G u, 0 ≤ e.2

/-- The paths that visit no vertex twice are shorter than a bound. -/
def SimpleBelow (G : Graph V) (s : V) (bound : Int) : Prop :=
  ∀ v vs d, Path G s v vs d → vs.Nodup → d < bound

variable {G : Graph V} {s u v : V} {vs : List V} {d w : Int}

theorem Reachable.refl (G : Graph V) (s : V) : Reachable G s s :=
  ⟨[s], 0, .nil⟩

theorem Reachable.step (h : Reachable G s u) (he : (v, w) ∈ G u) : Reachable G s v := by
  rcases h with ⟨vs, d, h⟩
  exact ⟨v :: vs, d + w, h.snoc u v vs d w he⟩

theorem Path.length_nonneg (hG : Nonneg G) (h : Path G s v vs d) : 0 ≤ d := by
  induction h with
  | nil => exact Int.le_refl 0
  | snoc u v vs d w _ he ih => exact Int.add_nonneg ih (hG u _ he)

/-- A path ends at the first vertex of its list. -/
theorem Path.head (h : Path G s v vs d) : ∃ ws, vs = v :: ws := by
  cases h with
  | nil => exact ⟨[], rfl⟩
  | snoc u v vs d w _ _ => exact ⟨vs, rfl⟩

/-- A vertex of a path other than the first is at the end of an edge. -/
theorem Path.eq_or_edge (h : Path G s v vs d) {x : V} (hx : x ∈ vs) :
    x = s ∨ ∃ u w, (x, w) ∈ G u := by
  induction h with
  | nil => exact .inl (List.mem_singleton.mp hx)
  | snoc u v vs d w _ he ih =>
      rcases List.mem_cons.mp hx with rfl | hx
      · exact .inr ⟨u, w, he⟩
      · exact ih hx

theorem TreePath.path {before : V → V} (h : TreePath G before s v vs d) : Path G s v vs d := by
  induction h with
  | nil => exact .nil
  | snoc u v vs d w _ _ he _ ih => exact ih.snoc u v vs d w he

/-- Only the vertices on the path matter. -/
theorem TreePath.congr {before before' : V → V} (h : TreePath G before s v vs d)
    (heq : ∀ x ∈ vs, before' x = before x) : TreePath G before' s v vs d := by
  induction h with
  | nil => exact .nil
  | snoc u v vs d w _ hu he hw ih =>
      rcases List.forall_mem_cons.mp heq with ⟨hv, hvs⟩
      exact (ih hvs).snoc u v vs d w (hv.trans hu) he hw

/-- A path up to a vertex on it. -/
theorem Path.upto (hG : Nonneg G) (h : Path G s v vs d) {x : V} (hx : x ∈ vs) :
    ∃ vs' d', Path G s x vs' d' ∧ vs' <:+ vs ∧ d' ≤ d := by
  induction h with
  | nil =>
      rw [List.mem_singleton.mp hx]
      exact ⟨[s], 0, .nil, List.suffix_refl _, Int.le_refl 0⟩
  | snoc u v vs d w h he ih =>
      have hw : 0 ≤ w := hG u _ he
      rcases List.mem_cons.mp hx with rfl | hx
      · exact ⟨x :: vs, d + w, h.snoc u x vs d w he, List.suffix_refl _, Int.le_refl _⟩
      · rcases ih hx with ⟨vs', d', h', hsuffix, hd⟩
        exact ⟨vs', d', h', hsuffix.trans (List.suffix_cons v vs), by omega⟩

/-- Without its detours a path is no longer. -/
theorem Path.exists_simple [DecidableEq V] (hG : Nonneg G) (h : Path G s v vs d) :
    ∃ vs' d', Path G s v vs' d' ∧ vs'.Nodup ∧ d' ≤ d := by
  induction h with
  | nil => exact ⟨[s], 0, .nil, List.nodup_singleton s, Int.le_refl 0⟩
  | snoc u v vs d w _ he ih =>
      have hw : 0 ≤ w := hG u _ he
      rcases ih with ⟨vs', d', h', hnodup, hd⟩
      by_cases hv : v ∈ vs'
      · rcases h'.upto hG hv with ⟨vs'', d'', h'', hsuffix, hd'⟩
        exact ⟨vs'', d'', h'', hnodup.sublist hsuffix.sublist, by omega⟩
      · exact ⟨v :: vs', d' + w, h'.snoc u v vs' d' w he, List.nodup_cons.mpr ⟨hv, hnodup⟩,
          by omega⟩

/-- A vertex that is reached is reached below the bound of the simple paths. -/
theorem SimpleBelow.exists_path [DecidableEq V] (hG : Nonneg G) {bound : Int}
    (hsimple : SimpleBelow G s bound) (h : Reachable G s v) :
    ∃ vs d, Path G s v vs d ∧ d < bound := by
  rcases h with ⟨vs, d, h⟩
  rcases h.exists_simple hG with ⟨vs', d', h', hnodup, -⟩
  exact ⟨vs', d', h', hsimple v vs' d' h' hnodup⟩

theorem IsDistance.unique {d' : Int} (h : IsDistance G s v d) (h' : IsDistance G s v d') :
    d = d' := by
  rcases h.attained with ⟨vs, hvs⟩
  rcases h'.attained with ⟨vs', hvs'⟩
  exact Int.le_antisymm (h.least vs' d' hvs') (h'.least vs d hvs)

/-- Labels that are at most zero at the start, and that no edge out of a vertex with
    a label below the top improves, are at most the length of each path below the
    top. -/
theorem Path.le_of_closed (hG : Nonneg G) {label : V → Int} {top : Int} (hs : label s ≤ 0)
    (hclosed : ∀ u, label u < top → ∀ e ∈ G u, label e.1 ≤ label u + e.2)
    (h : Path G s v vs d) (hd : d < top) : label v ≤ d := by
  induction h with
  | nil => exact hs
  | snoc u v vs d w _ he ih =>
      have hw : 0 ≤ w := hG u _ he
      have hu : label u ≤ d := ih (by omega)
      have hv : label v ≤ label u + w := hclosed u (by omega) _ he
      omega

end ShortestPath

end BlogSample
