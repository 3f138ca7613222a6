import BlogSample.DotNet

/-!
# LINQ Queries

Queries over sequences in memory. Building a query only looks at whether there
is a sequence. Its predicate and its selector run when the query is enumerated,
for one item after the other, and the first exception ends the enumeration.

## Main definitions

* `Query`: A query and what its enumeration gives.
* `first`: `First()`.
* `whereSelect`: `Where(..).Select(..)`.
* `addRange`: `AddRange`, which enumerates.

## Theorems

* `enumerate_ok`: An enumeration in which nothing throws.
* `whereSelect_ok`: A query whose enumeration gives some items.
-/

namespace BlogSample

namespace DotNet

/-- A query that has been built. Nothing has run yet. -/
structure Query (α : Type) where
  enumerate : Except Exn (List α)

variable {α β : Type}

/-- A string, or any other object, whose members are read. -/
def nonNull : Option α → Except Exn α
  | none => throw .nullReference
  | some x => pure x

/-- `First()`. -/
def first : Option (List α) → Except Exn α
  | none => throw .argumentNull
  | some [] => throw .invalidOperation
  | some (x :: _) => pure x

/-- One item after the other is tested and, if it passes, selected. -/
def enumerate (p : α → Except Exn Bool) (f : α → Except Exn β) : List α → Except Exn (List β)
  | [] => pure []
  | x :: xs => do
      if ← p x then
        let y ← f x
        let ys ← enumerate p f xs
        pure (y :: ys)
      else enumerate p f xs

/-- `source.Where(p).Select(f)`. -/
def whereSelect (source : Option (List α)) (p : α → Except Exn Bool) (f : α → Except Exn β) :
    Except Exn (Query β) :=
  match source with
  | none => throw .argumentNull
  | some l => pure ⟨enumerate p f l⟩

/-- A query over a sequence, with what its enumeration gives. -/
theorem whereSelect_ok {l : List α} {p : α → Except Exn Bool} {f : α → Except Exn β}
    {ys : List β} (h : enumerate p f l = .ok ys) :
    whereSelect (some l) p f = .ok ⟨.ok ys⟩ := by
  rw [← h]
  rfl

/-- `result.AddRange(query)`. -/
def addRange (result : List α) (query : Query α) : Except Exn (List α) := do
  let items ← query.enumerate
  pure (result ++ items)

/-- An enumeration in which nothing throws gives, in their order, what is
    selected for the items that pass. -/
theorem enumerate_ok {p : α → Except Exn Bool} {f : α → Except Exn β} {q : α → Bool} {l : List α}
    (hp : ∀ x ∈ l, p x = .ok (q x)) (hf : ∀ x ∈ l, ∃ y, f x = .ok y) :
    ∃ ys, enumerate p f l = .ok ys ∧ List.Forall₂ (fun x y => f x = .ok y) (l.filter q) ys := by
  induction l with
  | nil => exact ⟨[], rfl, List.Forall₂.nil⟩
  | cons x l ih =>
      rcases ih (fun y hy => hp y (List.mem_cons_of_mem x hy))
        (fun y hy => hf y (List.mem_cons_of_mem x hy)) with ⟨ys, hrest, hall⟩
      rcases hf x List.mem_cons_self with ⟨y, hy⟩
      rw [enumerate, hp x List.mem_cons_self, hy, hrest]
      cases hq : q x with
      | true =>
          rw [List.filter_cons_of_pos hq]
          exact ⟨y :: ys, rfl, List.Forall₂.cons hy hall⟩
      | false =>
          rw [List.filter_cons_of_neg (Bool.not_eq_true _ ▸ hq)]
          exact ⟨ys, rfl, hall⟩

end DotNet

end BlogSample
