import BlogSample.Theory.Relaxation

/-!
# The Tree of a Search

A search that marks a vertex with the one whose edge was relaxed builds a tree
of paths. A mark is only changed on a vertex that has not been taken out, and
such a vertex is on no other path than its own, so the paths that are there
stay as they are.

## Main definitions

* `Tree`: The paths that the marks give.

## Theorems

* `Inv.newly`: A vertex whose edges improve a label is taken out for the first
  time.
* `Tree.next`: An exact step keeps the tree.
-/

namespace BlogSample

namespace Relaxation

open ShortestPath

universe u v

variable {σ : Type u} {V : Type v} [DecidableEq V] {P : PriorityQueue σ V Int}
  {add : Int → Int → Int} {G : Graph V} {src : V} {top : Int}

/-- Relaxing an edge marks its end with its beginning. -/
abbrev origin (cur : V) (_ : Int) : V :=
  cur

/-- The marks give each labelled vertex its path. -/
structure Tree (P : PriorityQueue σ V Int) (G : Graph V) (src : V) (top : Int) (bare : V)
    (s : Search σ V V) : Prop where
  path (v : V) : s.label v < top → ∃ vs, TreePath G s.mark src v vs (s.label v) ∧ vs.Nodup ∧
    ∀ x ∈ vs, x = v ∨ x ∈ s.visited
  bare (v : V) : v = src ∨ s.label v = top → s.mark v = bare
  first : src ∉ s.visited → ∀ x ∈ P.entries s.queue, x.1 = src

theorem Tree.start (top : Int) (bare : V) :
    Tree P G src top bare (start P src top (fun _ => bare)) := by
  unfold Relaxation.start
  refine ⟨fun v hv => ?_, fun _ _ => rfl, fun _ x hx => ?_⟩
  · simp only [Function.update_apply] at hv ⊢
    by_cases hsrc : v = src
    · rw [if_pos hsrc, hsrc]
      exact ⟨[src], .nil, List.nodup_singleton src, fun x hx => .inl (List.mem_singleton.mp hx)⟩
    · rw [if_neg hsrc] at hv
      exact absurd hv (Int.lt_irrefl top)
  · simp only [P.entries_enqueue, P.entries_empty] at hx
    rcases Multiset.mem_cons.mp hx with rfl | hx
    · rfl
    · exact absurd hx (Multiset.notMem_zero x)

omit [DecidableEq V] in
/-- A vertex whose edges improve a label is taken out for the first time, with the
    label it has. -/
theorem Inv.newly {s : Search σ V V} (hs : Inv P G src top s) {cur : V} {val : Int} {q : σ}
    (hq : P.tryDequeue s.queue = some ((cur, val), q)) {v : V} {w : Int} (he : (v, w) ∈ G cur)
    (hlt : val + w < s.label v) : cur ∉ s.visited ∧ val = s.label cur := by
  have htaken : (cur, val) ∈ P.entries s.queue := P.mem_of_tryDequeue hq
  have hcur := (hs.entry cur val htaken).1
  have hnew : cur ∉ s.visited := by
    intro hvisited
    -- The edges of a vertex that was taken out before improve nothing.
    have hclosed := hs.closed cur hvisited _ he
    simp only at hclosed
    omega
  exact ⟨hnew, hs.eq_label hq hnew⟩

/-- The label of a vertex that is improved has the path of the vertex that is taken out,
    and the shortest edge between the two. -/
theorem Tree.extend {bare : V} {s t : Search σ V V} (hs : Inv P G src top s)
    (h : Tree P G src top bare s) {cur : V} {val : Int} {q : σ}
    (hq : P.tryDequeue s.queue = some ((cur, val), q))
    (hsum : ∀ e ∈ G cur, e.1 ∉ insert cur s.visited → add val e.2 = val + e.2)
    (hE : Expanded P add origin cur val (G cur)
      { s with queue := q, visited := insert cur s.visited } t)
    {v : V} {w : Int} (he : (v, w) ∈ G cur) (hnew : v ∉ insert cur s.visited)
    (hlt : val + w < s.label v) (hmark : t.mark v = cur) (hlabel : t.label v = val + w) :
    ∃ vs, TreePath G t.mark src v vs (val + w) ∧ vs.Nodup ∧
      ∀ x ∈ vs, x = v ∨ x ∈ insert cur s.visited := by
  have hval := (hs.newly hq he hlt).2
  have htaken := hs.entry cur val (P.mem_of_tryDequeue hq)
  rcases h.path cur (Int.lt_of_le_of_lt htaken.1 htaken.2.1) with ⟨vs, hpath, hnodup, hvs⟩
  have hvs' : ∀ x ∈ vs, x ∈ insert cur s.visited := fun x hx =>
    Finset.mem_insert.mpr (hvs x hx)
  have hpath := hpath.congr (fun x hx => hE.mark_of_visited (hvs' x hx))
  rw [← hval] at hpath
  refine ⟨v :: vs, hpath.snoc cur v vs val w hmark he (fun w' he' => ?_), ?_, fun x hx => ?_⟩
  -- No edge between the two is shorter.
  · have hrelaxed := hE.relaxed _ he' hnew
    rw [hsum _ he' hnew, hlabel] at hrelaxed
    omega
  · exact List.nodup_cons.mpr ⟨fun hmem => hnew (hvs' v hmem), hnodup⟩
  · exact (List.mem_cons.mp hx).imp_right (hvs' x)

/-- An exact step keeps the tree. -/
theorem Tree.next {bare : V} {s : Search σ V V} (hs : Inv P G src top s) (hexact : Exact P add G s)
    (h : Tree P G src top bare s) : Tree P G src top bare (next P add origin G s) := by
  unfold Relaxation.next
  cases hq : P.tryDequeue s.queue with
  | none => exact h
  | some x =>
      rcases x with ⟨⟨cur, val⟩, q⟩
      have hsum := hexact cur val q hq
      have hE := @expand_expanded σ V V _ P add origin G cur val { s with queue := q }
      simp only at hE ⊢
      generalize expand P add origin G cur val { s with queue := q } = t at hE
      -- The source is taken out first.
      have hsrc : src ∈ insert cur s.visited := by
        by_contra hno
        refine hno (Finset.mem_insert.mpr (.inl ?_))
        exact (h.first (fun hmem => hno (Finset.mem_insert_of_mem hmem)) (cur, val)
          (P.mem_of_tryDequeue hq)).symm
      refine ⟨fun v hv => ?_, fun v hv => ?_, fun hno => ?_⟩
      · rw [hE.visited]
        rcases hE.change v with ⟨hlabel, hsame⟩ | ⟨hnew, hlt, -, hcur, w, he, hvw⟩
        -- The marks on a path of before are those they were.
        · simp only at hlabel hsame
          rw [hlabel] at hv ⊢
          rcases h.path v hv with ⟨vs, hpath, hnodup, hvs⟩
          refine ⟨vs, hpath.congr (fun x hx => ?_), hnodup, fun x hx => ?_⟩
          · rcases hvs x hx with rfl | hx
            · exact hsame
            · exact hE.mark_of_visited (Finset.mem_insert_of_mem hx)
          · exact (hvs x hx).imp_right Finset.mem_insert_of_mem
        · simp only at hnew hlt
          rw [hsum _ he hnew] at hvw
          rw [hvw] at hlt ⊢
          exact h.extend hs hq hsum hE he hnew hlt hcur hvw
      · rcases hE.change v with ⟨hlabel, hsame⟩ | ⟨hnew, hlt, -⟩
        · simp only at hlabel hsame
          rw [hsame]
          rw [hlabel] at hv
          exact h.bare v hv
        · rcases hv with rfl | hv
          · exact absurd hsrc hnew
          · have hle := hs.le_top v
            simp only at hlt
            omega
      · rw [hE.visited] at hno
        exact absurd hsrc hno

end Relaxation

end BlogSample
