import BlogSample.DisjointSets.Connectivity

/-!
# Detecting Circles

The loop of `DisjointSets_Main`. It unites the ends of one edge after the
other, until a union returns 0. Up to there no edge has closed a circle, so
the loop reports one exactly if the edges have one, whatever their order and
whichever of their ends comes first.

## Main definitions

* `detect`: The loop.
* `main`: The loop on filled arrays.

## Theorems

* `Represents.detect_eq`: The loop, from where some edges have been united.
* `main_circle`: What is reported.
-/

namespace BlogSample

namespace DisjointSets

open DotNet EdgeList

/-- The loop, which ends with a line on the console. -/
def detect : List (Int × Int) → Arrays → Option (Except Exn String)
  | [], _ => some (pure "NO circle!")
  | (x, y) :: es, s =>
      match unionVertices x y s with
      | none => none
      | some (.error e) => some (throw e)
      | some (.ok (r, t)) => if r = 0 then some (pure "circle detected!") else detect es t

/-- `Main`, with `n` vertices and the edges `es`. -/
def main (n : Nat) (es : List (Int × Int)) : Option (Except Exn String) :=
  detect es (Arrays.fill n)

section

variable {n : Nat}

/-- The edges of some more pairs. -/
theorem edges_append (es new : List (Int × Int)) : edges (es ++ new) = edges es ++ edges new :=
  List.map_append

/-- A circle does not go away. -/
theorem HasCircle.append {ms : List (Sym2 Int)} (h : HasCircle ms) (new : List (Int × Int)) :
    HasCircle (ms ++ edges new) := by
  induction new generalizing ms with
  | nil => exact (List.append_nil ms).symm ▸ h
  | cons e new ih =>
      change HasCircle (ms ++ s(e.1, e.2) :: edges new)
      rw [List.append_cons]
      exact ih (hasCircle_concat.mpr (Or.inl h))

/-- The loop, from where some edges without a circle have been united. -/
theorem Represents.detect_eq (new : List (Int × Int)) : ∀ {s : Arrays} {es : List (Int × Int)},
    Represents n s es → ¬ HasCircle (edges es) →
    (∀ e ∈ new, IsVertex n e.1 ∧ IsVertex n e.2) →
      (HasCircle (edges (es ++ new)) ∧ detect new s = some (.ok "circle detected!")) ∨
      (¬ HasCircle (edges (es ++ new)) ∧ detect new s = some (.ok "NO circle!")) := by
  induction new with
  | nil =>
      intro s es _ hnone _
      rw [List.append_nil]
      exact Or.inr ⟨hnone, rfl⟩
  | cons e new ih =>
      intro s es h hnone hnew
      rcases hnew e List.mem_cons_self with ⟨hx, hy⟩
      have hedge : edges (es ++ [e]) = edges es ++ [s(e.1, e.2)] := edges_append es [e]
      rw [detect]
      by_cases hjoined : Joined es e.1 e.2
      -- This edge closes the first circle.
      · have hcircle : HasCircle (edges (es ++ [e])) := by
          rw [hedge, hasCircle_concat]
          exact Or.inr (joined_iff_reachable.mp hjoined)
        refine Or.inl ⟨?_, ?_⟩
        · rw [List.append_cons, edges_append]
          exact HasCircle.append hcircle new
        · simp only [((h.union hx hy).1 hjoined).1]
          rfl
      -- The edge joins two trees, and `detect` goes on with the next one.
      · rcases (h.union hx hy).2 hjoined with ⟨t, hstep, ht⟩
        have hnone' : ¬ HasCircle (edges (es ++ [e])) := by
          rw [hedge, hasCircle_concat, ← joined_iff_reachable]
          exact not_or.mpr ⟨hnone, hjoined⟩
        have hgo : (match unionVertices e.1 e.2 s with
            | none => none
            | some (.error e) => some (throw e)
            | some (.ok (r, t)) =>
                if r = 0 then some (pure "circle detected!") else detect new t) =
            detect new t := by
          simp only [hstep]
          rfl
        rw [hgo, List.append_cons]
        exact ih ht hnone' (fun e he => hnew e (List.mem_cons_of_mem _ he))

/-- Other pairs of the same edges lie in the same range. -/
theorem isVertex_of_perm {es es' : List (Int × Int)} (hperm : (edges es').Perm (edges es))
    (hes : ∀ e ∈ es, IsVertex n e.1 ∧ IsVertex n e.2) :
    ∀ e ∈ es', IsVertex n e.1 ∧ IsVertex n e.2 := by
  intro e he
  have hmem : s(e.1, e.2) ∈ edges es := hperm.subset (List.mem_map_of_mem he)
  rcases List.mem_map.mp hmem with ⟨e₀, he₀, heq⟩
  rcases hes e₀ he₀ with ⟨hx, hy⟩
  -- The pair may have been turned around.
  rcases Sym2.eq_iff.mp heq with ⟨hfst, hsnd⟩ | ⟨hfst, hsnd⟩
  · exact ⟨hfst ▸ hx, hsnd ▸ hy⟩
  · exact ⟨hsnd ▸ hy, hfst ▸ hx⟩

/-- The loop from the start. -/
theorem main_eq {es : List (Int × Int)} (hes : ∀ e ∈ es, IsVertex n e.1 ∧ IsVertex n e.2) :
    (HasCircle (edges es) ∧ main n es = some (.ok "circle detected!")) ∨
    (¬ HasCircle (edges es) ∧ main n es = some (.ok "NO circle!")) :=
  (represents_fill n).detect_eq es not_hasCircle_nil hes

/-- The loop reports a circle exactly if the edges have one, and says so
    otherwise. The order of the edges and of their ends does not matter. -/
theorem main_circle {es : List (Int × Int)} (hes : ∀ e ∈ es, IsVertex n e.1 ∧ IsVertex n e.2) :
    (main n es = some (.ok "circle detected!") ↔ HasCircle (edges es)) ∧
    (main n es = some (.ok "NO circle!") ↔ ¬ HasCircle (edges es)) ∧
    ∀ es' : List (Int × Int), (edges es').Perm (edges es) → main n es' = main n es := by
  have htexts : (some (.ok "circle detected!") : Option (Except Exn String)) ≠
      some (.ok "NO circle!") := by
    simp
  refine ⟨?_, ?_, ?_⟩
  · rcases main_eq hes with ⟨hcircle, hrun⟩ | ⟨hnone, hrun⟩
    · exact iff_of_true hrun hcircle
    · exact iff_of_false (hrun ▸ htexts.symm) hnone
  · rcases main_eq hes with ⟨hcircle, hrun⟩ | ⟨hnone, hrun⟩
    · exact iff_of_false (hrun ▸ htexts) (not_not.mpr hcircle)
    · exact iff_of_true hrun hnone
  · intro es' hperm
    have hsame : HasCircle (edges es') ↔ HasCircle (edges es) := hasCircle_perm hperm
    -- Both runs report on the same multigraph.
    rcases main_eq hes with ⟨hcircle, hrun⟩ | ⟨hnone, hrun⟩
    · rcases main_eq (isVertex_of_perm hperm hes) with ⟨_, hrun'⟩ | ⟨hnone', _⟩
      · exact hrun'.trans hrun.symm
      · exact absurd (hsame.mpr hcircle) hnone'
    · rcases main_eq (isVertex_of_perm hperm hes) with ⟨hcircle', _⟩ | ⟨_, hrun'⟩
      · exact absurd (hsame.mp hcircle') hnone
      · exact hrun'.trans hrun.symm

/-- The sample's edges have no circle up to the one that closes it, whichever
    way they are read. -/
theorem main_circle_sample :
    HasCircle (edges [((0 : Int), (1 : Int)), (1, 2), (1, 3), (2, 4), (3, 4), (2, 5)]) ∧
    main 6 [(4, 3), (0, 1), (5, 2), (1, 3), (2, 1), (4, 2)] =
      some (.ok "circle detected!") := by
  have hsample := @main_circle 6 [(0, 1), (1, 2), (1, 3), (2, 4), (3, 4), (2, 5)] (by decide)
  have hrun : main 6 [(0, 1), (1, 2), (1, 3), (2, 4), (3, 4), (2, 5)] =
      some (.ok "circle detected!") := by
    decide +kernel
  refine ⟨hsample.1.mp hrun, ?_⟩
  rw [hsample.2.2 _ (by decide), hrun]

end

end DisjointSets

end BlogSample
