import Mathlib.Data.List.Sort
import Mathlib.Data.Multiset.MapFold

/-!
# Priority Queues

A queue that gives back an element of least priority. Which one of several it
is, and what state the queue keeps to decide it, is left open: `PriorityQueue`
is any implementation whose operations do to the entries what they should.

The elements of a queue may stand for others. `rename` reads them that way, so
that what is proved of the one queue holds of the other.

## Main definitions

* `PriorityQueue`: The operations, and what they do to the entries.
* `PriorityQueue.rename`: A queue of other elements.
* `sortedQueue`: A queue that is a sorted list.

## Theorems

* `PriorityQueue.tryDequeue_isSome`: There is an element where there is an
  entry.
* `PriorityQueue.count_enqueue`, `PriorityQueue.count_tryDequeue`: The length
  of the queue.
-/

namespace BlogSample

universe u v w

/-- An implementation of a priority queue. -/
structure PriorityQueue (σ : Type u) (α : Type v) (π : Type w) [LE π] where
  entries : σ → Multiset (α × π)
  empty : σ
  enqueue : σ → α → π → σ
  tryDequeue : σ → Option ((α × π) × σ)
  entries_empty : entries empty = 0
  entries_enqueue : ∀ q a p, entries (enqueue q a p) = (a, p) ::ₘ entries q
  entries_of_none : ∀ q, tryDequeue q = none → entries q = 0
  entries_of_some : ∀ q x q', tryDequeue q = some (x, q') → entries q = x ::ₘ entries q'
  least : ∀ q x q', tryDequeue q = some (x, q') → ∀ y ∈ entries q, x.2 ≤ y.2

namespace PriorityQueue

variable {σ : Type u} {α : Type v} {π : Type w} [LE π] (P : PriorityQueue σ α π)

/-- The number of entries. -/
def count (q : σ) : Nat :=
  (P.entries q).card

/-- A queue with an entry gives one back. -/
theorem tryDequeue_isSome {q : σ} (h : 0 < P.count q) :
    ∃ x q', P.tryDequeue q = some (x, q') := by
  cases hq : P.tryDequeue q with
  | none =>
      unfold count at h
      rw [P.entries_of_none q hq] at h
      exact absurd h (Nat.lt_irrefl 0)
  | some p => exact ⟨p.1, p.2, rfl⟩

theorem mem_of_tryDequeue {q q' : σ} {x : α × π} (h : P.tryDequeue q = some (x, q')) :
    x ∈ P.entries q := by
  rw [P.entries_of_some q x q' h]
  exact Multiset.mem_cons_self _ _

theorem count_enqueue (q : σ) (a : α) (p : π) : P.count (P.enqueue q a p) = P.count q + 1 := by
  unfold count
  rw [P.entries_enqueue, Multiset.card_cons]

theorem count_tryDequeue {q q' : σ} {x : α × π} (h : P.tryDequeue q = some (x, q')) :
    P.count q = P.count q' + 1 := by
  unfold count
  rw [P.entries_of_some q x q' h, Multiset.card_cons]

theorem entries_eq_zero_iff (q : σ) : P.entries q = 0 ↔ P.count q = 0 :=
  Multiset.card_eq_zero.symm

/-- The queue of what the elements stand for. -/
def rename {β : Type v} (key : α → β) (elem : β → α) (h : ∀ b, key (elem b) = b) :
    PriorityQueue σ β π where
  entries q := (P.entries q).map (Prod.map key id)
  empty := P.empty
  enqueue q b p := P.enqueue q (elem b) p
  tryDequeue q := (P.tryDequeue q).map (Prod.map (Prod.map key id) id)
  entries_empty := by rw [P.entries_empty, Multiset.map_zero]
  entries_enqueue q b p := by
    rw [P.entries_enqueue, Multiset.map_cons, Prod.map_apply, h]
    rfl
  entries_of_none q hq := by
    rw [P.entries_of_none q (Option.map_eq_none_iff.mp hq), Multiset.map_zero]
  entries_of_some q x q' hq := by
    rcases Option.map_eq_some_iff.mp hq with ⟨⟨y, r⟩, hy, heq⟩
    rcases Prod.mk.inj heq with ⟨rfl, rfl⟩
    rw [P.entries_of_some q y r hy, Multiset.map_cons]
    rfl
  least q x q' hq y hy := by
    rcases Option.map_eq_some_iff.mp hq with ⟨⟨z, r⟩, hz, heq⟩
    rcases Prod.mk.inj heq with ⟨rfl, rfl⟩
    rcases Multiset.mem_map.mp hy with ⟨y', hy', rfl⟩
    exact P.least q z r hz y' hy'

@[simp]
theorem count_rename {β : Type v} (key : α → β) (elem : β → α) (h : ∀ b, key (elem b) = b)
    (q : σ) : (P.rename key elem h).count q = P.count q :=
  Multiset.card_map _ _

end PriorityQueue

/-- A sorted list as a queue. Of equal priorities the latest comes first. -/
def sortedQueue (α : Type v) :
    PriorityQueue { l : List (α × Int) // l.Pairwise (fun x y => x.2 ≤ y.2) } α Int where
  entries q := q.1
  empty := ⟨[], .nil⟩
  enqueue q a p := ⟨q.1.orderedInsert (fun x y => x.2 ≤ y.2) (a, p),
    have : Std.Total (fun x y : α × Int => x.2 ≤ y.2) := ⟨fun x y => Int.le_total x.2 y.2⟩
    have : IsTrans (α × Int) (fun x y => x.2 ≤ y.2) := ⟨fun _ _ _ => Int.le_trans⟩
    List.Pairwise.orderedInsert (a, p) q.1 q.2⟩
  tryDequeue q :=
    match q with
    | ⟨[], _⟩ => none
    | ⟨x :: l, h⟩ => some (x, ⟨l, (List.pairwise_cons.mp h).2⟩)
  entries_empty := rfl
  entries_enqueue q a p := Multiset.coe_eq_coe.mpr (List.perm_orderedInsert _ (a, p) q.1)
  entries_of_none q hq := by
    rcases q with ⟨_ | ⟨x, l⟩, h⟩
    · rfl
    · cases hq
  entries_of_some q x q' hq := by
    rcases q with ⟨_ | ⟨y, l⟩, h⟩
    · cases hq
    · cases hq
      rfl
  -- The list is sorted, so its head is least.
  least q x q' hq y hy := by
    rcases q with ⟨_ | ⟨z, l⟩, h⟩
    · cases hq
    · cases hq
      rcases List.mem_cons.mp (Multiset.mem_coe.mp hy) with rfl | hy
      · exact Int.le_refl _
      · exact (List.pairwise_cons.mp h).1 y hy

end BlogSample
