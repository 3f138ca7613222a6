import BlogSample.AvlTree.Bst

/-!
# Insertion into the AVL Tree

What any sequence of insertions leaves behind. A rotation may move a key into
the left subtree of an equal one, so the order the tree keeps is the weak one,
and `Search` is correct under that order already.

## Main definitions

* `addNodes`: A sequence of insertions.
* `Inserted`: What insertion makes of a balanced tree.

## Theorems

* `add_spec`: One insertion keeps the tree balanced.
* `addNode_spec`: The same for the tree object.
* `addNodes_spec`: Any sequence of insertions.
-/

namespace BlogSample

namespace AvlTree

open DotNet BlogSample.BinaryTree BinarySearchTree Node

/-- What insertion makes of a balanced tree: a balanced one with the value
    put where the order allows it, at most one level higher. -/
structure Inserted (n : Node) (value : Int) (m : Node) : Prop where
  balanced : Balanced m
  perm : m.values.Perm (value :: n.values)
  ordered : Ordered n → Ordered m
  height : height m = height n ∨ height m = height n + 1

/-- The order of a traversal does not depend on how the tree is shaped. -/
theorem ordered_congr {n m : Node} (h : m.values = n.values) (hn : Ordered n) : Ordered m := by
  rw [Ordered, h]
  exact hn

/-- Insertion into the left subtree, up to the rebalancing. -/
theorem inserted_left (ref : Nat) {l l' : Node} {v : Int} (r : Node) {value : Int}
    (hv : value < v) (hl : Inserted l value l') :
    (node ref l' v r).values.Perm (value :: (node ref l v r).values) ∧
      (Ordered (node ref l v r) → Ordered (node ref l' v r)) := by
  constructor
  · rw [values_node, values_node]
    exact hl.perm.append_right _
  · intro h
    rw [ordered_node] at h ⊢
    refine ⟨hl.ordered h.1, h.2.1, fun a ha => ?_, h.2.2.2⟩
    rcases List.mem_cons.mp (hl.perm.subset ha) with rfl | ha
    · exact Int.le_of_lt hv
    · exact h.2.2.1 a ha

/-- Insertion into the right subtree, where equal values go. -/
theorem inserted_right (ref : Nat) (l : Node) {v : Int} {r r' : Node} {value : Int}
    (hv : ¬ value < v) (hr : Inserted r value r') :
    (node ref l v r').values.Perm (value :: (node ref l v r).values) ∧
      (Ordered (node ref l v r) → Ordered (node ref l v r')) := by
  constructor
  · rw [values_node, values_node]
    have hinsert := (hr.perm.cons v).append_left l.values
    have hswap := (List.Perm.swap value v r.values).append_left l.values
    exact (hinsert.trans hswap).trans List.perm_middle
  · intro h
    rw [ordered_node] at h ⊢
    refine ⟨h.1, hr.ordered h.2.1, h.2.2.1, fun b hb => ?_⟩
    rcases List.mem_cons.mp (hr.perm.subset hb) with rfl | hb
    · exact Int.not_lt.mp hv
    · exact h.2.2.2 b hb

/-- One insertion does not throw and keeps the tree balanced. -/
theorem add_spec {n : Node} (hn : Balanced n) (ref : Nat) (value : Int) :
    ∃ m, add n ref value = .ok m ∧ Inserted n value m := by
  induction n with
  | null =>
      exact ⟨node ref null value null, rfl, ⟨trivial, trivial, by decide, by decide⟩,
        List.Perm.refl _, fun _ => List.pairwise_singleton _ _, Or.inr rfl⟩
  | node ρ l v r ihl ihr =>
      rcases hn with ⟨hl, hr, hlr, hrl⟩
      rw [add]
      by_cases hv : value < v
      · rcases ihl hl with ⟨l', hadd, hins⟩
        -- The left side may have grown by one, which one rebalancing makes good.
        have hheight := hins.height
        rcases rebalance_spec ρ v hins.balanced hr (by omega) (by omega) with
          ⟨m, hm, hbal, hvalues, hmheight⟩
        rcases inserted_left ρ r hv hins with ⟨hperm, hord⟩
        rw [if_pos hv, hadd]
        refine ⟨m, hm, hbal, hvalues ▸ hperm, fun h => ordered_congr hvalues (hord h), ?_⟩
        rw [height_node]
        omega
      · rcases ihr hr with ⟨r', hadd, hins⟩
        -- Likewise for the right side.
        have hheight := hins.height
        rcases rebalance_spec ρ v hl hins.balanced (by omega) (by omega) with
          ⟨m, hm, hbal, hvalues, hmheight⟩
        rcases inserted_right ρ l hv hins with ⟨hperm, hord⟩
        rw [if_neg hv, hadd]
        refine ⟨m, hm, hbal, hvalues ▸ hperm, fun h => ordered_congr hvalues (hord h), ?_⟩
        rw [height_node]
        omega

/-- Insertion into a tree object. -/
theorem addNode_spec {t : BST} (ht : Balanced t.root) (value : Int) :
    ∃ u, addNode t value = .ok u ∧ Inserted t.root value u.root := by
  rcases add_spec ht t.next value with ⟨m, hadd, hins⟩
  refine ⟨⟨m, t.next + 1⟩, ?_, hins⟩
  rw [addNode]
  cases hroot : t.root with
  | null =>
      rw [hroot, add] at hadd
      rw [← Except.ok.inj hadd]
      rfl
  | node ρ l v r =>
      rw [hroot] at hadd
      simp only [hadd]
      rfl

/-- `AddNode` for each of a list of values. -/
def addNodes (t : BST) (values : List Int) : Except Exn BST :=
  values.foldlM addNode t

/-- Any sequence of insertions keeps the tree balanced and ordered. -/
theorem addNodes_from (vs : List Int) : ∀ t : BST, Balanced t.root → Ordered t.root →
    ∃ u, addNodes t vs = .ok u ∧ Balanced u.root ∧ Ordered u.root ∧
      u.root.values.Perm (vs ++ t.root.values) := by
  induction vs with
  | nil => exact fun t ht ho => ⟨t, rfl, ht, ho, List.Perm.refl _⟩
  | cons v vs ih =>
      intro t ht ho
      rcases addNode_spec ht v with ⟨t₁, hadd, hins⟩
      rcases ih t₁ hins.balanced (hins.ordered ho) with ⟨u, hu, hbal, hord, hperm⟩
      refine ⟨u, ?_, hbal, hord, ?_⟩
      · rw [addNodes, List.foldlM_cons, hadd]
        exact hu
      · have hmid := hins.perm.append_left vs
        exact (hperm.trans hmid).trans List.perm_middle

/-- Inserting any sequence of values into an empty tree does not throw. The
    traversal of the result is the sorted permutation of the values, every
    node is balanced, and `Search` finds exactly the values inserted. -/
theorem addNodes_spec (vs : List Int) :
    ∃ t, addNodes BST.new vs = .ok t ∧
      t.root.values.Pairwise (fun a b => a ≤ b) ∧ t.root.values.Perm vs ∧
      Balanced t.root ∧
      ∀ v, (∃ ref l r, t.search v = node ref l v r) ↔ v ∈ vs := by
  rcases addNodes_from vs BST.new trivial List.Pairwise.nil with ⟨t, ht, hbal, hord, hperm⟩
  rw [BST.new, values_null, List.append_nil] at hperm
  refine ⟨t, ht, hord, hperm, hbal, fun v => ?_⟩
  rw [BST.search, search_finds_iff hord, hperm.mem_iff]

end AvlTree

end BlogSample
