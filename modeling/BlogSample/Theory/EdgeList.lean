import Mathlib.Combinatorics.SimpleGraph.Acyclic

/-!
# Lists of Edges

Undirected multigraphs, given by the lists of their edges. Two vertices are
joined if edges lead from the one to the other. A multigraph has a circle if
one of its edges is a loop, if one of them comes twice, or if the simple graph
of its edges has a cycle.

Edges come one by one. A new edge closes a circle exactly if its ends are
joined already, and joins whatever was joined to one end with whatever was
joined to the other.

## Main definitions

* `Joined`: Two vertices are joined by pairs.
* `graph`: The simple graph of a list of edges.
* `HasCircle`: A multigraph has a circle.

## Theorems

* `joined_concat`: What one more pair joins.
* `hasCircle_concat`: Whether one more edge closes a circle.
* `hasCircle_perm`: The order of the edges does not matter.
-/

namespace BlogSample

namespace EdgeList

universe u

variable {α : Type u}

/-- The pairs lead from one vertex to the other, in whatever direction they
    are read. -/
def Joined (es : List (α × α)) : α → α → Prop :=
  Relation.EqvGen (fun x y => (x, y) ∈ es)

/-- The simple graph of a list of edges. -/
def graph (ms : List (Sym2 α)) : SimpleGraph α :=
  SimpleGraph.fromEdgeSet {e | e ∈ ms}

/-- There is a loop, an edge that comes twice, or a cycle of different
    edges. -/
def HasCircle (ms : List (Sym2 α)) : Prop :=
  (∃ e ∈ ms, e.IsDiag) ∨ ¬ ms.Nodup ∨ ¬ (graph ms).IsAcyclic

/-- The edges of some pairs. -/
def edges (es : List (α × α)) : List (Sym2 α) :=
  es.map (fun e => s(e.1, e.2))

section Joined

variable {es : List (α × α)} {a b c x y : α}

theorem Joined.refl (es : List (α × α)) (a : α) : Joined es a a :=
  Relation.EqvGen.refl a

theorem Joined.symm (h : Joined es a b) : Joined es b a :=
  Relation.EqvGen.symm a b h

theorem Joined.trans (h : Joined es a b) (h' : Joined es b c) : Joined es a c :=
  Relation.EqvGen.trans a b c h h'

/-- More pairs join more. -/
theorem Joined.mono {es' : List (α × α)} (h : Joined es a b) (hsub : es ⊆ es') :
    Joined es' a b :=
  Relation.EqvGen.mono (fun _ _ hmem => hsub hmem) a b h

/-- No pairs join nothing. -/
theorem joined_nil : Joined [] a b ↔ a = b := by
  constructor
  · intro h
    induction h with
    | rel a b hmem => cases hmem
    | refl a => rfl
    | symm a b _ ih => exact ih.symm
    | trans a b c _ _ ih ih' => exact ih.trans ih'
  · intro h
    exact h ▸ Joined.refl [] a

/-- One more pair joins what was joined to its ends. -/
theorem joined_concat : Joined (es ++ [(x, y)]) a b ↔ Joined es a b ∨
    (Joined es a x ∧ Joined es y b) ∨ (Joined es a y ∧ Joined es x b) := by
  constructor
  -- By induction on the way from one to the other, which uses the new edge in one
  -- direction, in the other, or not at all.
  · intro h
    induction h with
    | rel a b hmem =>
        rcases List.mem_append.mp hmem with hmem | hmem
        · exact Or.inl (.rel a b hmem)
        · cases List.mem_singleton.mp hmem
          exact Or.inr (Or.inl ⟨.refl es x, .refl es y⟩)
    | refl a => exact Or.inl (.refl es a)
    | symm a b _ ih =>
        rcases ih with h | ⟨hx, hy⟩ | ⟨hy, hx⟩
        · exact Or.inl h.symm
        · exact Or.inr (Or.inr ⟨hy.symm, hx.symm⟩)
        · exact Or.inr (Or.inl ⟨hx.symm, hy.symm⟩)
    | trans a b c _ _ ih ih' =>
        rcases ih with h | ⟨hx, hy⟩ | ⟨hy, hx⟩
        · rcases ih' with h' | ⟨hx', hy'⟩ | ⟨hy', hx'⟩
          · exact Or.inl (h.trans h')
          · exact Or.inr (Or.inl ⟨h.trans hx', hy'⟩)
          · exact Or.inr (Or.inr ⟨h.trans hy', hx'⟩)
        · rcases ih' with h' | ⟨hx', hy'⟩ | ⟨hy', hx'⟩
          · exact Or.inr (Or.inl ⟨hx, hy.trans h'⟩)
          · exact Or.inr (Or.inl ⟨hx, hy'⟩)
          · exact Or.inl (hx.trans hx')
        · rcases ih' with h' | ⟨hx', hy'⟩ | ⟨hy', hx'⟩
          · exact Or.inr (Or.inr ⟨hy, hx.trans h'⟩)
          · exact Or.inl (hy.trans hy')
          · exact Or.inr (Or.inr ⟨hy, hx'⟩)
  · have hsub : es ⊆ es ++ [(x, y)] := List.subset_append_left es _
    have hnew : Joined (es ++ [(x, y)]) x y :=
      .rel x y (List.mem_append_right es List.mem_cons_self)
    intro h
    rcases h with h | ⟨hx, hy⟩ | ⟨hy, hx⟩
    · exact h.mono hsub
    · exact ((hx.mono hsub).trans hnew).trans (hy.mono hsub)
    · exact ((hy.mono hsub).trans hnew.symm).trans (hx.mono hsub)

/-- Vertices are joined by pairs if the graph of the pairs leads from one to
    the other. -/
theorem joined_iff_reachable : Joined es a b ↔ (graph (edges es)).Reachable a b := by
  constructor
  · intro h
    induction h with
    | rel a b hmem =>
        by_cases hab : a = b
        · exact hab ▸ SimpleGraph.Reachable.refl a
        · refine SimpleGraph.Adj.reachable ((SimpleGraph.fromEdgeSet_adj _).mpr ⟨?_, hab⟩)
          exact List.mem_map.mpr ⟨(a, b), hmem, rfl⟩
    | refl a => exact SimpleGraph.Reachable.refl a
    | symm a b _ ih => exact ih.symm
    | trans a b c _ _ ih ih' => exact ih.trans ih'
  · intro h
    rcases h with ⟨walk⟩
    induction walk with
    | nil => exact .refl es _
    | cons hadj _ ih =>
        rcases List.mem_map.mp ((SimpleGraph.fromEdgeSet_adj _).mp hadj).1 with ⟨e, he, hends⟩
        rcases Sym2.eq_iff.mp hends with ⟨rfl, rfl⟩ | ⟨rfl, rfl⟩
        · exact Joined.trans (.rel _ _ he) ih
        · exact Joined.trans (Joined.symm (.rel _ _ he)) ih

end Joined

section Circles

variable {ms ms' : List (Sym2 α)} {x y : α}

/-- The order of the edges does not matter. -/
theorem hasCircle_perm (h : ms.Perm ms') : HasCircle ms ↔ HasCircle ms' := by
  have hmem : {e | e ∈ ms} = {e | e ∈ ms'} := Set.ext (fun e => h.mem_iff)
  unfold HasCircle graph
  rw [h.nodup_iff, hmem]
  exact or_congr_left ⟨fun ⟨e, he, hd⟩ => ⟨e, h.mem_iff.mp he, hd⟩,
    fun ⟨e, he, hd⟩ => ⟨e, h.mem_iff.mpr he, hd⟩⟩

/-- No edges, no circle. -/
theorem not_hasCircle_nil : ¬ HasCircle ([] : List (Sym2 α)) := by
  have hbot : graph ([] : List (Sym2 α)) = ⊥ := by
    unfold graph
    rw [show {e : Sym2 α | e ∈ ([] : List (Sym2 α))} = ∅ from
      Set.ext (fun e => iff_of_false List.not_mem_nil id)]
    exact SimpleGraph.fromEdgeSet_empty
  rintro (⟨e, he, -⟩ | hnodup | hacyclic)
  · cases he
  · exact hnodup List.nodup_nil
  · rw [hbot] at hacyclic
    exact hacyclic SimpleGraph.isAcyclic_bot

/-- The graph with one more edge. -/
theorem graph_concat : graph (ms ++ [s(x, y)]) = graph ms ⊔ SimpleGraph.edge x y := by
  have hset : {e | e ∈ ms ++ [s(x, y)]} = {e | e ∈ ms} ∪ {s(x, y)} :=
    Set.ext (fun e => List.mem_append.trans (or_congr_right List.mem_singleton))
  unfold graph SimpleGraph.edge
  rw [hset, ← SimpleGraph.fromEdgeSet_union]

/-- One more edge closes a circle exactly if its ends are joined already. -/
theorem hasCircle_concat :
    HasCircle (ms ++ [s(x, y)]) ↔ HasCircle ms ∨ (graph ms).Reachable x y := by
  have hadj (hmem : s(x, y) ∈ ms) (hxy : x ≠ y) : (graph ms).Adj x y :=
    (SimpleGraph.fromEdgeSet_adj _).mpr ⟨hmem, hxy⟩
  constructor
  · intro h
    by_contra hnot
    rcases not_or.mp hnot with ⟨hcircle, hreach⟩
    unfold HasCircle at hcircle
    rw [not_or, not_or, not_not, not_not] at hcircle
    -- Without a circle before, the new edge must make it: as a loop, as the second
    -- of its kind, or within a cycle. Each of them joins its ends.
    rcases hcircle with ⟨hloop, hnodup, hacyclic⟩
    have hxy : x ≠ y := fun hxy => hreach (hxy ▸ SimpleGraph.Reachable.refl x)
    rcases h with ⟨e, he, hdiag⟩ | htwice | hcycle
    · rcases List.mem_append.mp he with he | he
      · exact hloop ⟨e, he, hdiag⟩
      · rw [List.mem_singleton.mp he] at hdiag
        exact hxy (Sym2.mk_isDiag_iff.mp hdiag)
    · refine htwice (List.nodup_append'.mpr ⟨hnodup, List.nodup_singleton _, fun e he he' => ?_⟩)
      rw [List.mem_singleton.mp he'] at he
      exact hreach (hadj he hxy).reachable
    · rw [graph_concat] at hcycle
      exact hcycle (hacyclic.sup_edge_of_not_reachable hreach)
  · intro h
    rcases h with (⟨e, he, hdiag⟩ | htwice | hcycle) | hreach
    · exact Or.inl ⟨e, List.mem_append_left _ he, hdiag⟩
    · exact Or.inr (Or.inl (fun hnodup => htwice (List.Nodup.of_append_left hnodup)))
    · refine Or.inr (Or.inr (fun hacyclic => hcycle ?_))
      rw [graph_concat] at hacyclic
      exact (SimpleGraph.isAcyclic_sup_fromEdgeSet_iff.mp hacyclic).1
    -- The ends are joined: by themselves, by the same edge, or by a way around it.
    · by_cases hxy : x = y
      · exact Or.inl ⟨s(x, y), List.mem_append_right _ List.mem_cons_self,
          Sym2.mk_isDiag_iff.mpr hxy⟩
      · by_cases hmem : s(x, y) ∈ ms
        · refine Or.inr (Or.inl (fun hnodup => ?_))
          exact (List.nodup_append'.mp hnodup).2.2 hmem List.mem_cons_self
        · refine Or.inr (Or.inr (fun hacyclic => ?_))
          rw [graph_concat] at hacyclic
          rcases (SimpleGraph.isAcyclic_sup_fromEdgeSet_iff.mp hacyclic).2 hreach with h | h
          · exact hxy h
          · exact hmem ((SimpleGraph.fromEdgeSet_adj _).mp h).1

end Circles

end EdgeList

end BlogSample
