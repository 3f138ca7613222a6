import Mathlib.Data.List.Basic
import Mathlib.Data.List.Nodup

/-!
# Binary Trees of Objects

Binary trees whose nodes have an identity as well as a value. A program that
holds references to nodes and writes through them changes the node of a given
identity wherever it sits in the tree, and changes nothing when the node has
been cut off; `update` is that write.

The order of a search tree is read off its in-order traversal: the tree is
ordered when the list is. `pairwise_values_node` turns that into the usual
condition on the two subtrees, for any relation, strict or not.

## Main definitions

* `BinaryTree`: Trees of nodes with an identity and a value.
* `values`, `refs`: The values and the identities, in order.
* `leftmost`: The node reached by going left as long as possible.
* `update`: A write through a reference.
* `Subtree`: One tree sits inside another.

## Theorems

* `pairwise_values_node`: The order of a tree, node by node.
* `update_of_not_mem`: Writing to a node that is cut off changes nothing.
* `Subtree.values_sublist`: A subtree holds a part of the values.
* `leftmost_spec`: The leftmost node is a subtree without a left child.
-/

namespace BlogSample

universe u v

/-- Trees of nodes with an identity and a value. -/
inductive BinaryTree (ρ : Type u) (α : Type v) where
  | null
  | node (ref : ρ) (left : BinaryTree ρ α) (value : α) (right : BinaryTree ρ α)
  deriving DecidableEq

namespace BinaryTree

variable {ρ : Type u} {α : Type v}

/-- The values, in order. -/
def values : BinaryTree ρ α → List α
  | null => []
  | node _ l v r => l.values ++ v :: r.values

/-- The identities of the nodes, in order. -/
def refs : BinaryTree ρ α → List ρ
  | null => []
  | node ref l _ r => l.refs ++ ref :: r.refs

/-- The node reached by going left as long as possible. -/
def leftmost : BinaryTree ρ α → BinaryTree ρ α
  | null => null
  | node ref null v r => node ref null v r
  | node _ l _ _ => l.leftmost

/-- Write to the node with the given identity. -/
def update [DecidableEq ρ] (ref : ρ) (f : BinaryTree ρ α → BinaryTree ρ α) :
    BinaryTree ρ α → BinaryTree ρ α
  | null => null
  | node ref' l v r =>
      if ref' = ref then f (node ref' l v r)
      else node ref' (update ref f l) v (update ref f r)

@[simp]
theorem values_null : (null : BinaryTree ρ α).values = [] := rfl

@[simp]
theorem values_node (ref : ρ) (l : BinaryTree ρ α) (v : α) (r : BinaryTree ρ α) :
    (node ref l v r).values = l.values ++ v :: r.values := rfl

@[simp]
theorem refs_null : (null : BinaryTree ρ α).refs = [] := rfl

@[simp]
theorem refs_node (ref : ρ) (l : BinaryTree ρ α) (v : α) (r : BinaryTree ρ α) :
    (node ref l v r).refs = l.refs ++ ref :: r.refs := rfl

theorem values_eq_nil_iff (t : BinaryTree ρ α) : t.values = [] ↔ t = null := by
  cases t with
  | null => exact iff_of_true rfl rfl
  | node ref l v r =>
      refine iff_of_false (fun h => ?_) nofun
      exact List.cons_ne_nil _ _ (List.append_eq_nil_iff.mp h).2

/-- The order of a tree, node by node. -/
theorem pairwise_values_node {R : α → α → Prop} (ref : ρ) (l : BinaryTree ρ α) (v : α)
    (r : BinaryTree ρ α) :
    (node ref l v r).values.Pairwise R ↔
      l.values.Pairwise R ∧ r.values.Pairwise R ∧ (∀ a ∈ l.values, R a v) ∧
        (∀ b ∈ r.values, R v b) ∧ ∀ a ∈ l.values, ∀ b ∈ r.values, R a b := by
  rw [values_node, List.pairwise_append, List.pairwise_cons]
  constructor
  · rintro ⟨hl, ⟨hvr, hr⟩, hlr⟩
    exact ⟨hl, hr, fun a ha => hlr a ha v List.mem_cons_self, hvr,
      fun a ha b hb => hlr a ha b (List.mem_cons_of_mem v hb)⟩
  · rintro ⟨hl, hr, hlv, hvr, hlr⟩
    refine ⟨hl, ⟨hvr, hr⟩, fun a ha b hb => ?_⟩
    rcases List.mem_cons.mp hb with rfl | hb
    · exact hlv a ha
    · exact hlr a ha b hb

/-- Writing to a node that is cut off changes nothing. -/
theorem update_of_not_mem [DecidableEq ρ] (ref : ρ) (f : BinaryTree ρ α → BinaryTree ρ α)
    (t : BinaryTree ρ α) (h : ref ∉ t.refs) : t.update ref f = t := by
  induction t with
  | null => rfl
  | node ref' l v r ihl ihr =>
      rw [refs_node, List.mem_append, List.mem_cons, not_or, not_or] at h
      rw [update, if_neg (Ne.symm h.2.1), ihl h.1, ihr h.2.2]

/-- One tree sits inside another, or is the other. -/
inductive Subtree (s : BinaryTree ρ α) : BinaryTree ρ α → Prop
  | refl : Subtree s s
  | left (ref : ρ) (l : BinaryTree ρ α) (v : α) (r : BinaryTree ρ α) :
      Subtree s l → Subtree s (node ref l v r)
  | right (ref : ρ) (l : BinaryTree ρ α) (v : α) (r : BinaryTree ρ α) :
      Subtree s r → Subtree s (node ref l v r)

theorem Subtree.trans {s t u : BinaryTree ρ α} (h : Subtree s t) (h' : Subtree t u) :
    Subtree s u := by
  induction h' with
  | refl => exact h
  | left ref l v r _ ih => exact .left ref l v r ih
  | right ref l v r _ ih => exact .right ref l v r ih

/-- A subtree holds a part of the values, in their order. -/
theorem Subtree.values_sublist {s t : BinaryTree ρ α} (h : Subtree s t) :
    s.values.Sublist t.values := by
  induction h with
  | refl => exact List.Sublist.refl _
  | left ref l v r _ ih => exact ih.trans (List.sublist_append_left _ _)
  | right ref l v r _ ih =>
      exact ih.trans ((List.sublist_cons_self v _).trans (List.sublist_append_right _ _))

/-- A subtree has a part of the nodes, in their order. -/
theorem Subtree.refs_sublist {s t : BinaryTree ρ α} (h : Subtree s t) :
    s.refs.Sublist t.refs := by
  induction h with
  | refl => exact List.Sublist.refl _
  | left ref l v r _ ih => exact ih.trans (List.sublist_append_left _ _)
  | right ref l v r _ ih =>
      exact ih.trans ((List.sublist_cons_self ref _).trans (List.sublist_append_right _ _))

theorem Subtree.left_child (ref : ρ) (l : BinaryTree ρ α) (v : α) (r : BinaryTree ρ α) :
    Subtree l (node ref l v r) := .left ref l v r .refl

theorem Subtree.right_child (ref : ρ) (l : BinaryTree ρ α) (v : α) (r : BinaryTree ρ α) :
    Subtree r (node ref l v r) := .right ref l v r .refl

/-- The leftmost node is a subtree without a left child, below the left
    child if there is one. -/
theorem leftmost_spec (ref : ρ) (l : BinaryTree ρ α) (v : α) (r : BinaryTree ρ α) :
    ∃ ref' m r', (node ref l v r).leftmost = node ref' null m r' ∧
      (l = null ∧ ref' = ref ∧ m = v ∧ r' = r ∨ Subtree (node ref' null m r') l) := by
  induction l generalizing ref v r with
  | null => exact ⟨ref, v, r, rfl, Or.inl ⟨rfl, rfl, rfl, rfl⟩⟩
  | node ref₁ l₁ v₁ r₁ ihl _ =>
      rcases ihl ref₁ v₁ r₁ with ⟨ref', m, r', hm, hcase⟩
      refine ⟨ref', m, r', hm, Or.inr ?_⟩
      rcases hcase with ⟨rfl, rfl, rfl, rfl⟩ | hsub
      · exact .refl
      · exact .left ref₁ l₁ v₁ r₁ hsub

end BinaryTree

end BlogSample
