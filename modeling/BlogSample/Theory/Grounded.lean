import Mathlib.Logic.Relation

/-!
# Grounded Points of a Relation

A point is grounded when some way along a relation leads from it to a point of
a base. Where the relation says what a thing waits for, and the base what is
under way, the grounded things are those that will be done.

The results here say when a change of the relation leaves a point grounded.
A step that moves a point into the base, or that only takes away edges of
points that are grounded otherwise, does no harm; a step that cuts an edge
harms those from which the edge can be reached.

## Main definitions

* `Grounded`: Some way leads to the base.

## Theorems

* `Grounded.cut`: Who is not hurt by edges that are cut.
* `Grounded.mono`: No edge that matters is cut.
* `Grounded.avoid`: A way ends in what can be reached.
* `Grounded.target`: Cutting the edges into a point does not hurt the point.
* `Grounded.within`: A set that holds the base and that no edge leads into
  holds what is grounded.
-/

namespace BlogSample

universe u

variable {α : Type u} {r r' : α → α → Prop} {base base' : α → Prop}

/-- Some way along the relation leads to the base. -/
inductive Grounded (r : α → α → Prop) (base : α → Prop) : α → Prop
  | base (x : α) : base x → Grounded r base x
  | step (x y : α) : r x y → Grounded r base y → Grounded r base x

namespace Grounded

/-- A point from which no edge that is cut can be reached stays grounded. -/
theorem cut (gone : α → Prop) (hbase : ∀ x, base x → Grounded r' base' x)
    (hstep : ∀ x y, r x y → r' x y ∨ Grounded r' base' x ∨ gone x) {x : α}
    (h : Grounded r base x) (hx : ∀ y, Relation.ReflTransGen r x y → ¬ gone y) :
    Grounded r' base' x := by
  induction h with
  | base x hb => exact hbase x hb
  | step x y hxy _ ih =>
      have hy : Grounded r' base' y := ih (fun z hz => hx z (.head hxy hz))
      rcases hstep x y hxy with hr | hg | hgone
      · exact .step x y hr hy
      · exact hg
      · exact absurd hgone (hx x .refl)

/-- If the points that lose an edge are grounded otherwise, all points stay
    grounded. -/
theorem mono (hbase : ∀ x, base x → Grounded r' base' x)
    (hstep : ∀ x y, r x y → r' x y ∨ Grounded r' base' x) {x : α}
    (h : Grounded r base x) : Grounded r' base' x := by
  refine cut (fun _ => False) hbase (fun x y hxy => ?_) h (fun _ _ hf => hf)
  rcases hstep x y hxy with hr | hg
  · exact .inl hr
  · exact .inr (.inl hg)

/-- The way of a point does not end in what the point does not reach. -/
theorem avoid (gone : α → Prop) {x : α} (h : Grounded r base x)
    (hx : ∀ y, Relation.ReflTransGen r x y → ¬ gone y) :
    Grounded r (fun y => base y ∧ ¬ gone y) x := by
  induction h with
  | base x hb => exact .base x ⟨hb, hx x .refl⟩
  | step x y hxy _ ih => exact .step x y hxy (ih (fun z hz => hx z (.head hxy hz)))

/-- A point stays grounded when only edges into it are cut, since a way that
    leads back to it can be cut short. -/
theorem target (x : α) (hbase : ∀ y, base y → Grounded r' base' y)
    (hstep : ∀ y z, r y z → r' y z ∨ Grounded r' base' y ∨ z = x) (h : Grounded r base x) :
    Grounded r' base' x := by
  have hway : ∀ y, Grounded r base y → Grounded r' base' y ∨ Grounded r' base' x := by
    intro y hy
    induction hy with
    | base y hb => exact .inl (hbase y hb)
    | step y z hyz _ ih =>
        rcases ih with hz | hz
        · rcases hstep y z hyz with hr | hy | rfl
          · exact .inl (.step y z hr hz)
          · exact .inl hy
          · exact .inr hz
        · exact .inr hz
  rcases hway x h with hx | hx
  · exact hx
  · exact hx

/-- A set that holds the base, and that no edge leads into, holds every
    grounded point. -/
theorem within (p : α → Prop) (hbase : ∀ x, base x → p x) (hstep : ∀ x y, r x y → ¬ p y)
    {x : α} (h : Grounded r base x) : p x := by
  induction h with
  | base x hb => exact hbase x hb
  | step x y hxy _ ih => exact absurd ih (hstep x y hxy)

end Grounded

end BlogSample
