import Mathlib.Data.List.TakeWhile
import Mathlib.Order.Lattice

/-!
# The Next Smaller Value

For each position of a sequence, the first one after it with a smaller value.
A scan from the left keeps the positions for which there has been none yet, the
latest on top. Their values do not increase from the top downwards: the later
position has seen no smaller value either, but the earlier one has seen its
value. So those for which a new value is the answer are on top of the others.

## Main definitions

* `Next`: A position is the answer for another one.
* `Open`: There has been no answer for a position yet.
* `Stacked`: The positions that are open, the latest first.

## Theorems

* `mem_takeWhile_iff`, `mem_dropWhile_iff`: Taking and dropping from a list on
  which the condition holds for a first part.
* `Stacked.mem_takeWhile`: What is taken off the stack is what is answered.
* `Stacked.push`: The stack after another value.
-/

namespace BlogSample

namespace NextSmaller

section Prefix

variable {α : Type} {p : α → Bool} {l : List α}

/-- The condition of a `while` loop over a list holds for all of it that has the condition, if it
    holds for what stands before. -/
theorem mem_takeWhile_iff (hmono : l.Pairwise (fun x y => p y = true → p x = true)) (x : α) :
    x ∈ l.takeWhile p ↔ x ∈ l ∧ p x = true := by
  induction l with
  | nil => simp only [List.takeWhile_nil, List.not_mem_nil, false_and]
  | cons y l ih =>
      rw [List.pairwise_cons] at hmono
      cases hy : p y with
      | true =>
          rw [List.takeWhile_cons_of_pos hy, List.mem_cons, List.mem_cons, ih hmono.2]
          constructor
          · rintro (rfl | ⟨hmem, hx⟩)
            · exact ⟨.inl rfl, hy⟩
            · exact ⟨.inr hmem, hx⟩
          · rintro ⟨rfl | hmem, hx⟩
            · exact .inl rfl
            · exact .inr ⟨hmem, hx⟩
      | false =>
          -- No element has the condition, since the first one does not.
          have hno : ∀ z ∈ y :: l, ¬p z = true := by
            intro z hz hpz
            rcases List.mem_cons.mp hz with rfl | hz
            · exact Bool.false_ne_true (hy.symm.trans hpz)
            · exact Bool.false_ne_true (hy.symm.trans (hmono.1 z hz hpz))
          rw [List.takeWhile_cons_of_neg (hno y (List.mem_cons_self ..))]
          constructor
          · exact fun hx => absurd hx List.not_mem_nil
          · exact fun hx => absurd hx.2 (hno x hx.1)

theorem mem_dropWhile_iff (hmono : l.Pairwise (fun x y => p y = true → p x = true))
    (hnodup : l.Nodup) (x : α) : x ∈ l.dropWhile p ↔ x ∈ l ∧ ¬p x = true := by
  have happ : l.takeWhile p ++ l.dropWhile p = l := List.takeWhile_append_dropWhile
  have hdisj : ∀ a ∈ l.takeWhile p, ∀ b ∈ l.dropWhile p, a ≠ b := by
    rw [← happ, List.nodup_append] at hnodup
    exact hnodup.2.2
  constructor
  · intro hx
    have hmem : x ∈ l := by
      rw [← happ]
      exact List.mem_append_right _ hx
    exact ⟨hmem, fun hpx => hdisj x ((mem_takeWhile_iff hmono x).mpr ⟨hmem, hpx⟩) x hx rfl⟩
  · rintro ⟨hmem, hpx⟩
    rw [← happ, List.mem_append, mem_takeWhile_iff hmono] at hmem
    exact hmem.resolve_left (fun h => hpx h.2)

end Prefix

variable {α : Type} [LinearOrder α] {a : ℕ → α} {i k : ℕ} {stack : List ℕ}

/-- The first position after another one with a smaller value. -/
def Next (a : ℕ → α) (k j : ℕ) : Prop :=
  k < j ∧ a j < a k ∧ ∀ m, k < m → m < j → a k ≤ a m

/-- Up to a position, there is no smaller value after an earlier one. -/
def Open (a : ℕ → α) (i k : ℕ) : Prop :=
  k < i ∧ ∀ m, k < m → m < i → a k ≤ a m

/-- The positions that are open, the latest first. -/
structure Stacked (a : ℕ → α) (i : ℕ) (stack : List ℕ) : Prop where
  order : stack.Pairwise (· > ·)
  mem_iff : ∀ k, k ∈ stack ↔ Open a i k

theorem Stacked.nil (a : ℕ → α) : Stacked a 0 [] where
  order := .nil
  mem_iff := fun _ => ⟨fun h => absurd h List.not_mem_nil, fun h => absurd h.1 (Nat.not_lt_zero _)⟩

theorem Stacked.nodup (h : Stacked a i stack) : stack.Nodup :=
  h.order.imp (fun h => Nat.ne_of_gt h)

theorem Stacked.lt (h : Stacked a i stack) (hk : k ∈ stack) : k < i :=
  ((h.mem_iff k).mp hk).1

/-- Where a new value is smaller than one on the stack, it is smaller than those above it. -/
theorem Stacked.mono (h : Stacked a i stack) :
    stack.Pairwise (fun k k' => decide (a i < a k') = true → decide (a i < a k) = true) := by
  refine h.order.imp_of_mem (fun {k k'} hk hk' hlt hsmall => ?_)
  rw [decide_eq_true_eq] at hsmall ⊢
  exact hsmall.trans_le (((h.mem_iff k').mp hk').2 k hlt (h.lt hk))

/-- What is taken off the stack is what the new value is the answer for. -/
theorem Stacked.mem_takeWhile (h : Stacked a i stack) :
    k ∈ stack.takeWhile (fun k => a i < a k) ↔ Next a k i := by
  rw [mem_takeWhile_iff h.mono, h.mem_iff, decide_eq_true_eq]
  constructor
  · rintro ⟨⟨hlt, hopen⟩, hsmall⟩
    exact ⟨hlt, hsmall, hopen⟩
  · rintro ⟨hlt, hsmall, hopen⟩
    exact ⟨⟨hlt, hopen⟩, hsmall⟩

/-- A position that was open is still open, if the next value is not smaller. -/
theorem open_succ_iff : Open a (i + 1) k ↔ k = i ∨ (Open a i k ∧ ¬a i < a k) := by
  constructor
  · rintro ⟨hlt, hopen⟩
    rcases Nat.lt_succ_iff_lt_or_eq.mp hlt with hki | hki
    · refine .inr ⟨⟨hki, fun m hkm hmi => hopen m hkm (hmi.trans (Nat.lt_succ_self i))⟩, ?_⟩
      exact not_lt.mpr (hopen i hki (Nat.lt_succ_self i))
    · exact .inl hki
  · rintro (rfl | ⟨⟨hlt, hopen⟩, hnot⟩)
    · exact ⟨Nat.lt_succ_self k, fun m hkm hmi => by omega⟩
    · refine ⟨hlt.trans (Nat.lt_succ_self i), fun m hkm hmi => ?_⟩
      rcases Nat.lt_succ_iff_lt_or_eq.mp hmi with hmi | rfl
      · exact hopen m hkm hmi
      · exact not_lt.mp hnot

/-- The stack after another value: it is on top of those that it does not answer. -/
theorem Stacked.push (h : Stacked a i stack) :
    Stacked a (i + 1) (i :: stack.dropWhile (fun k => a i < a k)) where
  order := List.pairwise_cons.mpr ⟨fun _ hk => h.lt ((List.dropWhile_sublist _).subset hk),
    h.order.sublist (List.dropWhile_sublist _)⟩
  mem_iff := fun k => by
    rw [List.mem_cons, mem_dropWhile_iff h.mono h.nodup, h.mem_iff, decide_eq_true_eq,
      open_succ_iff]

end NextSmaller

end BlogSample
