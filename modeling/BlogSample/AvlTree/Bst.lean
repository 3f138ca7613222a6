import BlogSample.BinarySearchTree.Bst

/-!
# The AVL Tree Sample

Insertion with rebalancing of `AVL_TreeSample.BST`. The node class and its
`Search` are those of the binary search tree sample, word for word; only
insertion, which rotates on the way back up, is its own.

A rotation dereferences the child that becomes the new root, so it throws on
a missing one. Rotating does not change the in-order traversal, and
`rebalance_spec` says what the code does with a node whose two subtrees differ
by at most two in height: it never throws, and the height stays that of the
higher subtree or grows by one.

## Main definitions

* `height`, `leftHeight`, `rightHeight`: Heights, `0` for `null`.
* `leftRotate`, `rightRotate`: The rotations.
* `rebalance`: The part of `Add` after the recursive call.
* `add`, `addNode`: Insertion.
* `Balanced`: The heights of siblings differ by at most one.

## Theorems

* `leftRotate_values`, `rightRotate_values`: Rotations keep the order.
* `rebalance_spec`: A node that is out of balance by two is balanced again.
-/

namespace BlogSample

namespace AvlTree

open DotNet BlogSample.BinaryTree BinarySearchTree

/-- `Height()`, with `0` for a `null` child. -/
def height : Node → Int
  | null => 0
  | node _ left _ right => max (height left) (height right) + 1

/-- `LeftHeight()`. -/
def leftHeight : Node → Int
  | null => 0
  | node _ left _ _ => height left

/-- `RightHeight()`. -/
def rightHeight : Node → Int
  | null => 0
  | node _ _ _ right => height right

/-- `LeftRotate()`. -/
def leftRotate : Node → Except Exn Node
  | node ref left v (node ref' left' v' right') =>
      pure (node ref' (node ref left v left') v' right')
  | _ => throw .nullReference

/-- `RightRotate()`. -/
def rightRotate : Node → Except Exn Node
  | node ref (node ref' left' v' right') v right =>
      pure (node ref' left' v' (node ref right' v right))
  | _ => throw .nullReference

/-- The part of `Add` after the recursive call. -/
def rebalance : Node → Except Exn Node
  | null => throw .nullReference
  | node ref left v right =>
      if height right - height left > 1 then do
        let right ← (if right ≠ null ∧ rightHeight right < leftHeight right then
          rightRotate right else pure right)
        leftRotate (node ref left v right)
      else if height left - height right > 1 then do
        let left ← (if left ≠ null ∧ leftHeight left < rightHeight left then
          leftRotate left else pure left)
        rightRotate (node ref left v right)
      else pure (node ref left v right)

/-- `Add(pNode, node)` for a node without children. -/
def add : Node → Nat → Int → Except Exn Node
  | null, ref, value => pure (node ref null value null)
  | node r left v right, ref, value =>
      if value < v then do
        let left ← add left ref value
        rebalance (node r left v right)
      else do
        let right ← add right ref value
        rebalance (node r left v right)

/-- `AddNode(new Node(value))`. -/
def addNode (t : BST) (value : Int) : Except Exn BST :=
  match t.root with
  | null => pure ⟨node t.next null value null, t.next + 1⟩
  | root => do
      let root ← add root t.next value
      pure ⟨root, t.next + 1⟩

/-- The heights of the two subtrees of every node differ by at most one. -/
def Balanced : Node → Prop
  | null => True
  | node _ left _ right =>
      Balanced left ∧ Balanced right ∧ height left ≤ height right + 1 ∧
        height right ≤ height left + 1

@[simp]
theorem height_null : height null = 0 := rfl

@[simp]
theorem height_node (ref : Nat) (l : Node) (v : Int) (r : Node) :
    height (node ref l v r) = max (height l) (height r) + 1 := rfl

theorem height_nonneg (n : Node) : 0 ≤ height n := by
  induction n with
  | null => exact Int.le_refl 0
  | node ref l v r ihl _ =>
      rw [height_node]
      omega

/-- A tree of positive height has a root. -/
theorem exists_node {n : Node} (h : 0 < height n) : ∃ ref l v r, n = node ref l v r := by
  cases n with
  | null => exact absurd h (Int.lt_irrefl 0)
  | node ref l v r => exact ⟨ref, l, v, r, rfl⟩

/-! ### Rotations -/

theorem leftRotate_values {n m : Node} (h : leftRotate n = .ok m) : m.values = n.values := by
  cases n with
  | null => cases h
  | node ref l v r =>
      cases r with
      | null => cases h
      | node ref' l' v' r' =>
          rw [← Except.ok.inj h]
          simp only [values_node, List.append_assoc, List.cons_append]

theorem rightRotate_values {n m : Node} (h : rightRotate n = .ok m) : m.values = n.values := by
  cases n with
  | null => cases h
  | node ref l v r =>
      cases l with
      | null => cases h
      | node ref' l' v' r' =>
          rw [← Except.ok.inj h]
          simp only [values_node, List.append_assoc, List.cons_append]

/-- A rotation to the left of a node whose right subtree is too high by one,
    when the right child does not lean to the left. -/
theorem leftRotate_spec (ref : Nat) {l : Node} (v : Int) {r : Node} (hl : Balanced l)
    (hr : Balanced r) (hhigh : height r = height l + 2) (hlean : leftHeight r ≤ rightHeight r) :
    ∃ m, leftRotate (node ref l v r) = .ok m ∧ Balanced m ∧
      (height m = height r ∨ height m = height r + 1) := by
  have hpos := height_nonneg l
  rcases exists_node (n := r) (by omega) with ⟨ref', l', v', r', rfl⟩
  rw [height_node] at hhigh
  simp only [leftHeight, rightHeight] at hlean
  simp only [Balanced] at hr
  refine ⟨_, rfl, ⟨⟨hl, hr.1, by omega, by omega⟩, hr.2.1, ?_, ?_⟩, ?_⟩
  all_goals simp only [height_node]; omega

/-- When it does, the right child is rotated to the right first. -/
theorem rightLeftRotate_spec (ref : Nat) {l : Node} (v : Int) {r : Node} (hl : Balanced l)
    (hr : Balanced r) (hhigh : height r = height l + 2) (hlean : rightHeight r < leftHeight r) :
    ∃ r' m, rightRotate r = .ok r' ∧ leftRotate (node ref l v r') = .ok m ∧ Balanced m ∧
      height m = height r := by
  have hpos := height_nonneg l
  rcases exists_node (n := r) (by omega) with ⟨ref₁, l₁, v₁, r₁, rfl⟩
  rw [height_node] at hhigh
  simp only [leftHeight, rightHeight] at hlean
  simp only [Balanced] at hr
  have hpos₁ := height_nonneg r₁
  rcases exists_node (n := l₁) (by omega) with ⟨ref₂, l₂, v₂, r₂, rfl⟩
  rw [height_node] at hhigh hlean hr
  simp only [Balanced] at hr
  refine ⟨_, _, rfl, rfl, ⟨⟨hl, hr.1.1, by omega, by omega⟩,
    ⟨hr.1.2.1, hr.2.1, by omega, by omega⟩, ?_, ?_⟩, ?_⟩
  all_goals simp only [height_node]; omega

theorem rightRotate_spec (ref : Nat) {l : Node} (v : Int) {r : Node} (hl : Balanced l)
    (hr : Balanced r) (hhigh : height l = height r + 2) (hlean : rightHeight l ≤ leftHeight l) :
    ∃ m, rightRotate (node ref l v r) = .ok m ∧ Balanced m ∧
      (height m = height l ∨ height m = height l + 1) := by
  have hpos := height_nonneg r
  rcases exists_node (n := l) (by omega) with ⟨ref', l', v', r', rfl⟩
  rw [height_node] at hhigh
  simp only [leftHeight, rightHeight] at hlean
  simp only [Balanced] at hl
  refine ⟨_, rfl, ⟨hl.1, ⟨hl.2.1, hr, by omega, by omega⟩, ?_, ?_⟩, ?_⟩
  all_goals simp only [height_node]; omega

theorem leftRightRotate_spec (ref : Nat) {l : Node} (v : Int) {r : Node} (hl : Balanced l)
    (hr : Balanced r) (hhigh : height l = height r + 2) (hlean : leftHeight l < rightHeight l) :
    ∃ l' m, leftRotate l = .ok l' ∧ rightRotate (node ref l' v r) = .ok m ∧ Balanced m ∧
      height m = height l := by
  have hpos := height_nonneg r
  rcases exists_node (n := l) (by omega) with ⟨ref₁, l₁, v₁, r₁, rfl⟩
  rw [height_node] at hhigh
  simp only [leftHeight, rightHeight] at hlean
  simp only [Balanced] at hl
  have hpos₁ := height_nonneg l₁
  rcases exists_node (n := r₁) (by omega) with ⟨ref₂, l₂, v₂, r₂, rfl⟩
  rw [height_node] at hhigh hlean hl
  simp only [Balanced] at hl
  refine ⟨_, _, rfl, rfl, ⟨⟨hl.1, hl.2.1.1, by omega, by omega⟩,
    ⟨hl.2.1.2.1, hr, by omega, by omega⟩, ?_, ?_⟩, ?_⟩
  all_goals simp only [height_node]; omega

/-! ### Rebalancing -/

/-- A node whose subtrees are balanced and differ by at most two in height
    is balanced again, in the same order. -/
theorem rebalance_spec (ref : Nat) {l : Node} (v : Int) {r : Node} (hl : Balanced l)
    (hr : Balanced r) (hlr : height l ≤ height r + 2) (hrl : height r ≤ height l + 2) :
    ∃ m, rebalance (node ref l v r) = .ok m ∧ Balanced m ∧
      m.values = (node ref l v r).values ∧
      (height m = max (height l) (height r) ∧ (height l + 1 < height r ∨ height r + 1 < height l) ∨
        height m = max (height l) (height r) + 1) := by
  rw [rebalance]
  by_cases hright : height r - height l > 1
  -- The right subtree is too high.
  · have hne : r ≠ null := by
      rintro rfl
      have := height_nonneg l
      rw [height_null] at hright
      omega
    rw [if_pos hright]
    -- The right subtree leans to the left: it is turned first.
    by_cases hlean : rightHeight r < leftHeight r
    · rcases rightLeftRotate_spec ref v hl hr (by omega) hlean with
        ⟨r', m, hr', hm, hbal, hheight⟩
      rw [if_pos ⟨hne, hlean⟩, hr']
      refine ⟨m, hm, hbal, ?_, ?_⟩
      · rw [leftRotate_values hm, values_node, rightRotate_values hr', values_node]
      · exact Or.inl ⟨by omega, by omega⟩
    · rcases leftRotate_spec ref v hl hr (by omega) (by omega) with
        ⟨m, hm, hbal, hheight⟩
      rw [if_neg (fun h => hlean h.2)]
      refine ⟨m, hm, hbal, leftRotate_values hm, ?_⟩
      omega
  · rw [if_neg hright]
    by_cases hleft : height l - height r > 1
    -- The left one is.
    · have hne : l ≠ null := by
        rintro rfl
        have := height_nonneg r
        rw [height_null] at hleft
        omega
      rw [if_pos hleft]
      -- And the other way round.
      by_cases hlean : leftHeight l < rightHeight l
      · rcases leftRightRotate_spec ref v hl hr (by omega) hlean with
          ⟨l', m, hl', hm, hbal, hheight⟩
        rw [if_pos ⟨hne, hlean⟩, hl']
        refine ⟨m, hm, hbal, ?_, ?_⟩
        · rw [rightRotate_values hm, values_node, leftRotate_values hl', values_node]
        · exact Or.inl ⟨by omega, by omega⟩
      · rcases rightRotate_spec ref v hl hr (by omega) (by omega) with
          ⟨m, hm, hbal, hheight⟩
        rw [if_neg (fun h => hlean h.2)]
        refine ⟨m, hm, hbal, rightRotate_values hm, ?_⟩
        omega
    · rw [if_neg hleft]
      exact ⟨_, rfl, ⟨hl, hr, by omega, by omega⟩, rfl, Or.inr rfl⟩

end AvlTree

end BlogSample
