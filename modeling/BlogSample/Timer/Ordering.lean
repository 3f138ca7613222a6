import BlogSample.Theory.WeakOrder
import BlogSample.Timer.Cancellation

/-!
# The Ordering of the Timers

`std::set` asks of its comparison that it is a strict weak order of the values it holds.
The `operator<` of the timers takes either field as enough, and the comparison by the
expiry first stands commented out in it. Nothing is less than itself, and no two timers
are apart from each other; but a timer that expires later and was added before comes
before the other one and behind it.

So the set has what it asks for as long as no such two timers are in it, and that is also
when a search for each of them comes to it, whatever the shape of the tree.

## Theorems

* `earlier_strictWeakOn`: The comparison that is meant is a strict weak order.
* `less_irrefl`, `less_incomp_trans`: What is never in the way.
* `less_strictWeakOn_iff`: On which values the comparison is a strict weak order.
* `found_iff_strictWeakOn`: What that says about the searches in a set.
-/

namespace BlogSample

namespace Timer

open Transition WeakOrder

/-- The comparison by the expiry and then the id is a strict weak order. -/
theorem earlier_strictWeakOn (S : Set NodeBase) : StrictWeakOn Earlier S :=
  lex_strictWeakOn NodeBase.expire NodeBase.id S

theorem less_iff_either (n m : NodeBase) :
    less n m = true ↔ Either NodeBase.expire NodeBase.id n m :=
  less_eq_true_iff n m

theorem less_irrefl (n : NodeBase) : less n n = false :=
  (less_eq_false_iff n n).mpr ⟨Int.le_refl _, Int.le_refl _⟩

/-- Two handles of which neither is less are the same. -/
theorem less_incomp_trans {n m k : NodeBase} (hnm : less n m = false ∧ less m n = false)
    (hmk : less m k = false ∧ less k m = false) : less n k = false ∧ less k n = false := by
  rw [eq_of_less_eq_false hnm.1 hnm.2]
  exact hmk

/-- On a set of values the comparison is a strict weak order if and only if none of them
    expires before another one and has a larger id. -/
theorem less_strictWeakOn_iff (S : Set NodeBase) :
    StrictWeakOn (fun n m => less n m = true) S ↔
      ∀ n ∈ S, ∀ m ∈ S, n.expire < m.expire → n.id ≤ m.id := by
  have hiff (n : NodeBase) (_ : n ∈ S) (m : NodeBase) (_ : m ∈ S) := less_iff_either n m
  calc StrictWeakOn (fun n m => less n m = true) S
      ↔ StrictWeakOn (Either NodeBase.expire NodeBase.id) S :=
        ⟨fun h => h.congr fun n hn m hm => (hiff n hn m hm).symm, fun h => h.congr hiff⟩
    _ ↔ MonovaryOn NodeBase.id NodeBase.expire S := either_strictWeakOn_iff
    _ ↔ _ := ⟨fun h n hn m hm => h hn hm, fun h n hn m hm => h n hn m hm⟩

/-- The handles of two timers, the second of which expires first, are less than each other. -/
theorem less_not_strictWeakOn :
    less first.toNodeBase second.toNodeBase = true ∧
      less second.toNodeBase first.toNodeBase = true ∧
      ¬ StrictWeakOn (fun n m => less n m = true) Set.univ := by
  have hless : less first.toNodeBase second.toNodeBase = true := by decide
  have hless' : less second.toNodeBase first.toNodeBase = true := by decide
  refine ⟨hless, hless', fun h => ?_⟩
  exact h.asymm _ (Set.mem_univ _) _ (Set.mem_univ _) hless hless'

/-- After any calls, each timer in the set is found by its handle in every shape of the tree if
    and only if the comparison is a strict weak order of the timers in the set. -/
theorem found_iff_strictWeakOn {φ : Type} {s₀ s : CTimer φ} {steps : List (CTimer φ × Call φ)}
    (h : (system φ).Run s₀ steps s) (hinit : (system φ).init s₀) :
    (∀ n ∈ s.timer.values, ∀ t : CTimer φ, t.timer.values = s.timer.values →
        t.Straight n.toNodeBase) ↔
      StrictWeakOn (fun n m => less n m = true) {n | ∃ m ∈ s.timer.values, m.toNodeBase = n} := by
  have hsorted := (inv_of_run h hinit).sorted
  rw [less_strictWeakOn_iff]
  constructor
  · rintro hfound _ ⟨n, hn, rfl⟩ _ ⟨m, hm, rfl⟩
    exact (straight_iff hsorted hn).mp (hfound n hn) m hm
  · intro hchain n hn
    refine (straight_iff hsorted hn).mpr fun m hm => ?_
    exact hchain _ ⟨n, hn, rfl⟩ _ ⟨m, hm, rfl⟩

end Timer

end BlogSample
