import BlogSample.BinarySearchTree.Termination

/-!
# Searching for the Parent

Where `SearchParent` finds the parent of a value in a sorted tree.

The first test is whether a child has the value, and at the root it is right.
From there the walk turns away from the value, to the left if the value is
larger, so it never comes to the parent of a value that lies deeper.

## Main definitions

* `StoredBelow`, `StoredDeep`: The value is below the root, or below its children.
* `FindsParent`: What the search for the parent is for.

## Theorems

* `findsParent_iff`: When the search finds the parent.
-/

namespace BlogSample

namespace BinarySearchTree

open BlogSample.BinaryTree

namespace Node

/-- A node below the root has the value. -/
def StoredBelow : Node → Int → Prop
  | null, _ => False
  | node _ l _ r, value => value ∈ l.values ∨ value ∈ r.values

/-- A node below the children of the root has the value. -/
def StoredDeep : Node → Int → Prop
  | null, _ => False
  | node _ l _ r, value => StoredBelow l value ∨ StoredBelow r value

theorem mem_values_iff (n : Node) (value : Int) :
    value ∈ n.values ↔ hasValue n value = true ∨ StoredBelow n value := by
  cases n with
  | null => simp [hasValue, StoredBelow]
  | node ref l v r =>
      rw [values_node, List.mem_append, List.mem_cons, hasValue, beq_iff_eq, StoredBelow,
        eq_comm]
      tauto

/-- The root of a subtree of a sorted tree does not have a value that is below it. -/
theorem Sorted.not_storedBelow {n : Node} (hn : Sorted n) {value : Int}
    (h : hasValue n value = true) : ¬ StoredBelow n value := by
  rcases hasValue_eq_true h with ⟨ref, l, r, rfl⟩
  rw [sorted_node] at hn
  rintro (hl | hr)
  · exact Int.lt_irrefl value (hn.2.2.1 value hl)
  · exact Int.lt_irrefl value (hn.2.2.2 value hr)

/-- A value that is below a child of the root is not the value of a child. -/
theorem not_child_of_storedDeep {ref : Nat} {l : Node} {v : Int} {r : Node}
    (hn : Sorted (node ref l v r)) {value : Int} (h : StoredDeep (node ref l v r) value) :
    (hasValue l value || hasValue r value) = false := by
  rw [sorted_node] at hn
  rcases hn with ⟨hl, hr, hlv, hvr⟩
  rw [Bool.or_eq_false_iff]
  -- The value lies on the side of its own child, and so is not the value of the other one.
  rcases h with h | h
  · have hmem := hlv value ((mem_values_iff l value).mpr (Or.inr h))
    refine ⟨Bool.not_eq_true _ ▸ fun hv => hl.not_storedBelow hv h, hasValue_false fun hv => ?_⟩
    have hgt := hvr value hv
    omega
  · have hmem := hvr value ((mem_values_iff r value).mpr (Or.inr h))
    refine ⟨hasValue_false fun hv => ?_, Bool.not_eq_true _ ▸ fun hv => hr.not_storedBelow hv h⟩
    have hlt := hlv value hv
    omega

end Node

namespace BST

open Node

/-- The search returns the node that has the value as the value of a child if the
    value is stored below the root, and `null` otherwise. -/
structure FindsParent (t : BST) (value : Int) : Prop where
  parent : StoredBelow t.root value → ∃ ref l v r, t.searchParent value = node ref l v r ∧
    Subtree (node ref l v r) t.root ∧ (hasValue l value = true ∨ hasValue r value = true)
  null : ¬ StoredBelow t.root value → t.searchParent value = null

/-- In a sorted tree, the search finds the parent of a value if and only if the value
    is not stored below a child of the root. -/
theorem findsParent_iff {t : BST} (ht : Sorted t.root) (value : Int) :
    t.FindsParent value ↔ ¬ StoredDeep t.root value := by
  cases hroot : t.root with
  | null =>
      refine iff_of_true ⟨fun h => ?_, fun _ => ?_⟩ not_false
      · rw [hroot] at h
        exact h.elim
      · rw [BST.searchParent, hroot]
        rfl
  | node ref l v r =>
      have hn : Sorted (node ref l v r) := hroot ▸ ht
      have hfound : t.searchParent value =
          if hasValue l value || hasValue r value then node ref l v r else BinaryTree.null := by
        rw [BST.searchParent, hroot, searchParent_sorted hn]
      constructor
      · intro h hdeep
        -- Neither child of the root has the value, and the search ends with `null`.
        have hbelow : StoredBelow t.root value := by
          rw [hroot]
          exact hdeep.imp (fun hl => (mem_values_iff l value).mpr (Or.inr hl))
            (fun hr => (mem_values_iff r value).mpr (Or.inr hr))
        rcases h.parent hbelow with ⟨ref', l', v', r', hparent, -⟩
        rw [hfound, not_child_of_storedDeep hn hdeep] at hparent
        cases hparent
      · intro hdeep
        rw [StoredDeep, not_or] at hdeep
        -- What is stored below the root is the value of one of its children.
        have hchild : StoredBelow t.root value ↔
            hasValue l value = true ∨ hasValue r value = true := by
          rw [hroot, StoredBelow, mem_values_iff, mem_values_iff, or_iff_left hdeep.1,
            or_iff_left hdeep.2]
        refine ⟨fun h => ?_, fun h => ?_⟩
        · have hvalue := hchild.mp h
          refine ⟨ref, l, v, r, ?_, hroot ▸ .refl, hvalue⟩
          rw [hfound, if_pos (Bool.or_eq_true_iff.mpr hvalue)]
        · rw [hfound, if_neg (fun hvalue => h (hchild.mpr (Bool.or_eq_true_iff.mp hvalue)))]

theorem findsParent_leaf :
    (build [7, 3, 10]).FindsParent 3 ↔ ¬ StoredDeep (build [7, 3, 10]).root 3 :=
  findsParent_iff (by unfold Sorted; decide) 3

/-- The parent of `1` is the node of `3`, and is not found. -/
theorem not_findsParent_deep :
    Sorted (build [7, 3, 10, 1]).root ∧ ¬ (build [7, 3, 10, 1]).FindsParent 1 := by
  have hsorted : Sorted (build [7, 3, 10, 1]).root := by
    unfold Sorted
    decide
  refine ⟨hsorted, fun h => ?_⟩
  rcases h.parent (Or.inl List.mem_cons_self) with ⟨ref, l, v, r, hparent, -⟩
  cases hparent

end BST

end BinarySearchTree

end BlogSample
