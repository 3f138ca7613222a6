import Mathlib.Algebra.BigOperators.Group.Finset.Sigma
import Mathlib.Algebra.Order.BigOperators.Group.Finset
import Mathlib.Data.Fintype.Pi

/-!
# Counting by Backtracking

How many functions on `Fin n` have a property, counted by fixing one value after
the other. The functions that agree with a given one on the first places fall
apart into those with each value at the next place.

## Main definitions

* `Agree`: Two functions have the same values at the first places.
* `completions`: The functions with the property that agree with a given one.

## Theorems

* `card_completions`: One place more is fixed.
* `completions_zero`, `card_completions_full`: No place is fixed, and all are.
-/

namespace BlogSample

namespace Backtracking

universe u

variable {n : ℕ} {α : Type u}

/-- The values at the first places are the same. -/
def Agree (y : ℕ) (p q : Fin n → α) : Prop :=
  ∀ i : Fin n, i.val < y → p i = q i

instance [DecidableEq α] (y : ℕ) (p q : Fin n → α) : Decidable (Agree y p q) :=
  inferInstanceAs (Decidable (∀ i : Fin n, i.val < y → p i = q i))

theorem agree_zero (p q : Fin n → α) : Agree 0 p q :=
  fun _ h => absurd h (Nat.not_lt_zero _)

theorem agree_full {p q : Fin n → α} : Agree n p q ↔ p = q := by
  constructor
  · exact fun h => funext (fun i => h i i.isLt)
  · rintro rfl i _
    rfl

/-- Agreeing at one place more. -/
theorem agree_succ {y : ℕ} (h : y < n) (p q : Fin n → α) (x : α) :
    Agree (y + 1) p (Function.update q ⟨y, h⟩ x) ↔ Agree y p q ∧ p ⟨y, h⟩ = x := by
  constructor
  · intro hp
    refine ⟨fun i hi => ?_, ?_⟩
    · rw [hp i (Nat.lt_succ_of_lt hi), Function.update_of_ne (fun heq => ?_)]
      rw [heq] at hi
      exact Nat.lt_irrefl y hi
    · rw [hp ⟨y, h⟩ (Nat.lt_succ_self y), Function.update_self]
  · rintro ⟨hp, hx⟩ i hi
    by_cases heq : i = ⟨y, h⟩
    · rw [heq, Function.update_self, hx]
    -- Another place is one of those before.
    · rw [Function.update_of_ne heq]
      refine hp i (Nat.lt_of_le_of_ne (Nat.le_of_lt_succ hi) (fun hiy => heq ?_))
      exact Fin.ext hiy

variable [Fintype α] [DecidableEq α] (P : (Fin n → α) → Prop) [DecidablePred P]

/-- The functions with the property that agree with a given one at the first places. -/
def completions (y : ℕ) (q : Fin n → α) : Finset (Fin n → α) :=
  Finset.univ.filter (fun p => P p ∧ Agree y p q)

variable {P}

theorem mem_completions {y : ℕ} {p q : Fin n → α} : p ∈ completions P y q ↔ P p ∧ Agree y p q := by
  rw [completions, Finset.mem_filter, and_iff_right (Finset.mem_univ p)]

/-- The next place may have each value. -/
theorem card_completions {y : ℕ} (h : y < n) (q : Fin n → α) :
    (completions P y q).card =
      ∑ x, (completions P (y + 1) (Function.update q ⟨y, h⟩ x)).card := by
  -- They are told apart by what they have at the next place.
  rw [Finset.card_eq_sum_card_fiberwise (f := fun p => p ⟨y, h⟩) (t := Finset.univ)
    (fun p _ => Finset.mem_univ _)]
  refine Finset.sum_congr rfl (fun x _ => congrArg Finset.card (Finset.ext (fun p => ?_)))
  rw [Finset.mem_filter, mem_completions, mem_completions, agree_succ, and_assoc]

theorem completions_zero (q : Fin n → α) : completions P 0 q = Finset.univ.filter P := by
  refine Finset.ext (fun p => ?_)
  rw [mem_completions, Finset.mem_filter, and_iff_left (agree_zero p q),
    and_iff_right (Finset.mem_univ p)]

theorem card_completions_full {q : Fin n → α} (hq : P q) : (completions P n q).card = 1 := by
  rw [Finset.card_eq_one]
  refine ⟨q, Finset.ext (fun p => ?_)⟩
  rw [mem_completions, agree_full, Finset.mem_singleton]
  constructor
  · exact fun h => h.2
  · rintro rfl
    exact ⟨hq, rfl⟩

end Backtracking

end BlogSample
