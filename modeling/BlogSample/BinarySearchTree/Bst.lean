import BlogSample.DotNet
import BlogSample.Theory.BinaryTree
import BlogSample.Theory.Transition

/-!
# The Binary Search Tree Sample

Nodes, search, insertion and deletion of `BinarySearchTree.BST`. A reference
is `null` or a node, and the identity of a node is the number it was allocated
with. A node that a method holds on to may be cut off from the tree before the
method writes to it, so a write goes through the identity: it reaches the node
where it is, or nothing.

`Delete` and `DeleteRightMinNode` call each other, and nothing in the code
bounds that, so both take fuel, one unit a call. A call that runs out has no
result at all, which is a different thing from a call that throws.

## Main definitions

* `Node`: References to tree nodes.
* `search`, `searchParent`: Looking for a value and for its parent.
* `BST`: A root and the next identity to give out.
* `addNode`, `delete`, `deleteRightMinNode`: The operations.
* `Op`, `bst`: Runs of operations that keep the values distinct.

## Theorems

* `search_finds_iff`, `search_eq_null_iff`: Search in an ordered tree.
* `delete_absent`, `delete_single`, `delete_leaf`, `delete_left`,
  `delete_right`, `delete_two`: The branches of `Delete`.
* `delete_mono`: More fuel does not change a result.
* `delete_unique`: A call has one result.
-/

namespace BlogSample

namespace BinarySearchTree

open DotNet Transition

/-- A reference to a node. -/
abbrev Node := BinaryTree Nat Int

namespace Node

open BlogSample.BinaryTree

/-- `Search(value)`. A `null` child ends the search with `null`. -/
def search : Node → Int → Node
  | null, _ => null
  | node ref left v right, value =>
      if v = value then node ref left v right
      else if v > value then search left value
      else search right value

/-- `child != null && child.Value == value`. -/
def hasValue : Node → Int → Bool
  | null, _ => false
  | node _ _ v _, value => v == value

/-- `SearchParent(value)`. -/
def searchParent : Node → Int → Node
  | null, _ => null
  | node ref left v right, value =>
      if hasValue left value || hasValue right value then node ref left v right
      else if left ≠ null ∧ v < value then searchParent left value
      else if right ≠ null ∧ v ≥ value then searchParent right value
      else null

/-- `Add(pNode, node)` for a node without children. -/
def add : Node → Nat → Int → Node
  | null, ref, value => node ref null value null
  | node r left v right, ref, value =>
      if value < v then node r (add left ref value) v right
      else node r left v (add right ref value)

/-- `node.Left = child`. -/
def setLeft (child : Node) : Node → Node
  | null => null
  | node ref _ v right => node ref child v right

/-- `node.Right = child`. -/
def setRight (child : Node) : Node → Node
  | null => null
  | node ref left v _ => node ref left v child

/-- `node.Value = value`. -/
def setValue (value : Int) : Node → Node
  | null => null
  | node ref left _ right => node ref left value right

/-! ### Searching -/

/-- The values are in increasing order. Equal ones may lie on either side of
    a node. -/
def Ordered (n : Node) : Prop :=
  n.values.Pairwise (fun a b => a ≤ b)

theorem ordered_node (ref : Nat) (l : Node) (v : Int) (r : Node) :
    Ordered (node ref l v r) ↔ Ordered l ∧ Ordered r ∧ (∀ a ∈ l.values, a ≤ v) ∧
      ∀ b ∈ r.values, v ≤ b := by
  rw [Ordered, pairwise_values_node]
  constructor
  · rintro ⟨hl, hr, hlv, hvr, -⟩
    exact ⟨hl, hr, hlv, hvr⟩
  · rintro ⟨hl, hr, hlv, hvr⟩
    exact ⟨hl, hr, hlv, hvr, fun a ha b hb => Int.le_trans (hlv a ha) (hvr b hb)⟩

/-- The search finds a subtree with the value at its root. -/
theorem search_some {n : Node} {value : Int} {ref : Nat} {l : Node} {v : Int} {r : Node}
    (h : search n value = node ref l v r) : v = value ∧ Subtree (node ref l v r) n := by
  induction n with
  | null => cases h
  | node ρ a x b iha ihb =>
      rw [search] at h
      by_cases hx : x = value
      · rw [if_pos hx] at h
        rw [← h]
        exact ⟨by rw [node.injEq] at h; rw [← h.2.2.1]; exact hx, .refl⟩
      · rw [if_neg hx] at h
        by_cases hgt : x > value
        · rw [if_pos hgt] at h
          exact ⟨(iha h).1, .left ρ a x b (iha h).2⟩
        · rw [if_neg hgt] at h
          exact ⟨(ihb h).1, .right ρ a x b (ihb h).2⟩

/-- In an ordered tree the search finds exactly the values that are there. -/
theorem search_finds_iff {n : Node} (hn : Ordered n) (value : Int) :
    (∃ ref l r, search n value = node ref l value r) ↔ value ∈ n.values := by
  constructor
  · rintro ⟨ref, l, r, h⟩
    refine (search_some h).2.values_sublist.subset ?_
    rw [values_node]
    exact List.mem_append_right _ List.mem_cons_self
  · intro hmem
    induction n with
    | null => exact absurd hmem List.not_mem_nil
    | node ρ a x b iha ihb =>
        rw [ordered_node] at hn
        rw [values_node, List.mem_append, List.mem_cons] at hmem
        by_cases hx : x = value
        · exact ⟨ρ, a, b, by rw [search, if_pos hx, hx]⟩
        · rw [search, if_neg hx]
          by_cases hgt : x > value
          · rw [if_pos hgt]
            refine iha hn.1 (hmem.resolve_right ?_)
            rintro (h | h)
            · exact hx h.symm
            · have := hn.2.2.2 value h
              omega
          · rw [if_neg hgt]
            rcases hmem with h | h | h
            · have := hn.2.2.1 value h
              omega
            · exact absurd h.symm hx
            · exact ihb hn.2.1 h

/-- The search fails exactly on the values that are not there. -/
theorem search_eq_null_iff {n : Node} (hn : Ordered n) (value : Int) :
    search n value = null ↔ value ∉ n.values := by
  rw [← search_finds_iff hn value]
  constructor
  · rintro h ⟨ref, l, r, h'⟩
    exact absurd (h.symm.trans h') nofun
  · intro h
    cases hs : search n value with
    | null => rfl
    | node ref l v r =>
        rcases search_some hs with ⟨rfl, -⟩
        exact absurd ⟨ref, l, r, hs⟩ h

end Node

/-- A `BST` object, with the identity the next new node gets. -/
structure BST where
  root : Node
  next : Nat
  deriving DecidableEq

namespace BST

open BlogSample.BinaryTree Node

/-- `new BST(null)`. -/
def new : BST := ⟨null, 0⟩

/-- `Search(value)`. -/
def search (t : BST) (value : Int) : Node := Node.search t.root value

/-- `SearchParent(value)`. -/
def searchParent (t : BST) (value : Int) : Node := Node.searchParent t.root value

/-- `AddNode(new Node(value))`. -/
def addNode (t : BST) (value : Int) : BST :=
  ⟨Node.add t.root t.next value, t.next + 1⟩

/-- A write through a reference to a node. -/
def write (t : BST) (ref : Nat) (f : Node → Node) : BST :=
  { t with root := t.root.update ref f }

/-- Replace the child of the parent that holds the value, as the branch of
    `Delete` for a target with one child does: the left child if it has the
    value, else the right one. -/
def replaceChild (t : BST) (parentNode : Node) (value : Int) (child : Node) : Except Exn BST :=
  match parentNode with
  | null => pure { t with root := child }
  | node _ null _ _ => throw .nullReference
  | node ref (node _ _ lv _) _ _ =>
      if lv = value then pure (t.write ref (setLeft child))
      else pure (t.write ref (setRight child))

/-- Cut off the child of the parent that holds the value, as the branch of
    `Delete` for a leaf does. -/
def dropLeaf (t : BST) (parentNode : Node) (value : Int) : Except Exn BST :=
  match parentNode with
  | null => throw .nullReference
  | node _ null _ _ => throw .nullReference
  | node ref (node _ _ lv _) _ right =>
      if lv = value then pure (t.write ref (setLeft null))
      else
        match right with
        | null => throw .nullReference
        | node _ _ rv _ => if rv = value then pure (t.write ref (setRight null)) else pure t

/-- A call that may run out of fuel or throw. -/
abbrev Call := ExceptT Exn Option

mutual

/-- `Delete(value)`. -/
def delete : Nat → BST → Int → Call BST
  | 0, _, _ => ExceptT.mk none
  | fuel + 1, t, value =>
      match t.root with
      | null => pure t
      | node _ rootLeft _ rootRight =>
          match t.search value with
          | null => pure t
          | node ref left v right =>
              -- Only the root is left.
              if rootLeft = null ∧ rootRight = null then pure { t with root := null }
              else if left = null ∧ right = null then
                ExceptT.mk (some (t.dropLeaf (t.searchParent value) value))
              else if left ≠ null ∧ right ≠ null then do
                let (minVal, t) ← deleteRightMinNode fuel t right
                pure (t.write ref (setValue minVal))
              else if left ≠ null then
                ExceptT.mk (some (t.replaceChild (t.searchParent value) v left))
              else
                ExceptT.mk (some (t.replaceChild (t.searchParent value) v right))

/-- `DeleteRightMinNode(node)`. The target has no left child, so deleting
    does not write to its value, and the value read afterwards is the one
    read before. -/
def deleteRightMinNode : Nat → BST → Node → Call (Int × BST)
  | 0, _, _ => ExceptT.mk none
  | fuel + 1, t, start =>
      match start.leftmost with
      | null => throw .nullReference
      | node _ _ minVal _ => do
          let t ← delete fuel t minVal
          pure (minVal, t)

end

/-- A call that goes on after another one throws what the first one throws,
    or does what the second one does. -/
theorem bind_eq_some {α β : Type} (x : Call α) (f : α → Call β) (r : Except Exn β) :
    (x >>= f) = some r ↔
      (∃ e, x = some (.error e) ∧ r = .error e) ∨ ∃ a, x = some (.ok a) ∧ f a = some r := by
  rcases x with _ | (e | a)
  · refine iff_of_false nofun ?_
    rintro (⟨e, h, -⟩ | ⟨a, h, -⟩) <;> cases h
  · change some (.error e) = some r ↔ _
    rw [Option.some.injEq]
    constructor
    · rintro rfl
      exact Or.inl ⟨e, rfl, rfl⟩
    · rintro (⟨e', h, rfl⟩ | ⟨a, h, -⟩)
      · rw [Except.error.inj (Option.some.inj h)]
      · exact absurd (Option.some.inj h) nofun
  · change f a = some r ↔ _
    constructor
    · intro h
      exact Or.inr ⟨a, rfl, h⟩
    · rintro (⟨e, h, -⟩ | ⟨a', h, hf⟩)
      · exact absurd (Option.some.inj h) nofun
      · rw [Except.ok.inj (Option.some.inj h)]
        exact hf

/-- The root is the only node. -/
def Single (t : BST) : Prop :=
  ∃ ref v, t.root = node ref null v null

/-- The only node is a leaf, and it is the root. -/
theorem Single.eq_of_subtree {t : BST} (h : t.Single) {ref : Nat} {left right : Node} {v : Int}
    (hsub : Subtree (node ref left v right) t.root) :
    t.root = node ref left v right ∧ left = null := by
  rcases h with ⟨ρ, x, h⟩
  rw [h] at hsub ⊢
  cases hsub with
  | refl => exact ⟨rfl, rfl⟩
  | left _ _ _ _ hsub => cases hsub
  | right _ _ _ _ hsub => cases hsub

/-- A node with a left child is not the only one. -/
theorem not_single {t : BST} {ref : Nat} {left right : Node} {v : Int}
    (hsub : Subtree (node ref left v right) t.root) (hl : left ≠ null) : ¬ t.Single :=
  fun h => hl (h.eq_of_subtree hsub).2

/-- A node that is not the root is not the only one. -/
theorem not_single_of_ne {t : BST} {ρ : Nat} {l : Node} {x : Int} {r : Node}
    (hroot : t.root = node ρ l x r) {ref : Nat} {left right : Node} {v : Int}
    (hsub : Subtree (node ref left v right) t.root) (hx : x ≠ v) : ¬ t.Single := by
  intro h
  have heq := hroot.symm.trans (h.eq_of_subtree hsub).1
  rw [node.injEq] at heq
  exact hx heq.2.2.1

section Branches

/-! One equation for each branch of `Delete`, by the node that the search
    finds. -/

variable {t : BST} {value : Int} {ref : Nat} {left right : Node} {v : Int} (fuel : Nat)

theorem delete_absent (h : t.search value = null) : delete (fuel + 1) t value = some (.ok t) := by
  rw [delete]
  cases hr : t.root with
  | null => rfl
  | node ref l v r => rw [h]; rfl

theorem delete_single (hs : t.search value = node ref left v right) (hone : t.Single) :
    delete (fuel + 1) t value = some (.ok { t with root := null }) := by
  rcases hone with ⟨ref', v', hroot⟩
  rw [delete, hroot, hs]
  rfl

/-- The root of a tree in which the search finds something, when it is not
    the only node. -/
theorem root_of_not_single (hs : t.search value = node ref left v right) (hmore : ¬ t.Single) :
    ∃ ρ l x r, t.root = node ρ l x r ∧ ¬ (l = null ∧ r = null) := by
  cases hr : t.root with
  | null =>
      rw [search, hr] at hs
      cases hs
  | node ρ l x r =>
      refine ⟨ρ, l, x, r, rfl, ?_⟩
      rintro ⟨rfl, rfl⟩
      exact hmore ⟨ρ, x, hr⟩

theorem delete_leaf (hs : t.search value = node ref null v null) (hmore : ¬ t.Single) :
    delete (fuel + 1) t value = some (t.dropLeaf (t.searchParent value) value) := by
  rcases root_of_not_single hs hmore with ⟨ρ, l, x, r, hroot, hlr⟩
  rw [delete, hroot]
  simp only [hs, if_neg hlr, and_self, if_true]
  rfl

theorem delete_left (hs : t.search value = node ref left v null) (hl : left ≠ null)
    (hmore : ¬ t.Single) :
    delete (fuel + 1) t value = some (t.replaceChild (t.searchParent value) v left) := by
  rcases root_of_not_single hs hmore with ⟨ρ, l, x, r, hroot, hlr⟩
  rw [delete, hroot]
  simp only [hs, if_neg hlr, hl, false_and, if_false, ne_eq, not_true_eq_false, and_false,
    not_false_eq_true, if_true]
  rfl

theorem delete_right (hs : t.search value = node ref null v right) (hr : right ≠ null)
    (hmore : ¬ t.Single) :
    delete (fuel + 1) t value = some (t.replaceChild (t.searchParent value) v right) := by
  rcases root_of_not_single hs hmore with ⟨ρ, l, x, r, hroot, hlr⟩
  rw [delete, hroot]
  simp only [hs, if_neg hlr, hr, and_false, if_false, ne_eq, not_true_eq_false, false_and]
  rfl

theorem delete_two (hs : t.search value = node ref left v right) (hl : left ≠ null)
    (hr : right ≠ null) (hmore : ¬ t.Single) :
    delete (fuel + 1) t value = (deleteRightMinNode fuel t right >>= fun p =>
      pure (p.2.write ref (setValue p.1))) := by
  rcases root_of_not_single hs hmore with ⟨ρ, l, x, r, hroot, hlr⟩
  rw [delete, hroot]
  simp only [hs, if_neg hlr, hl, hr, if_false, ne_eq, not_false_eq_true, and_self, if_true]

end Branches

/-- More fuel does not change a result. -/
theorem delete_mono (fuel : Nat) :
    (∀ t value r, delete fuel t value = some r → delete (fuel + 1) t value = some r) ∧
    (∀ t start r, deleteRightMinNode fuel t start = some r →
      deleteRightMinNode (fuel + 1) t start = some r) := by
  induction fuel with
  | zero => exact ⟨fun _ _ _ h => absurd h nofun, fun _ _ _ h => absurd h nofun⟩
  | succ fuel ih =>
      constructor
      · intro t value r h
        -- One branch of `Delete` after the other.
        cases hs : t.search value with
        | null => rw [delete_absent _ hs] at h ⊢; exact h
        | node ref left v right =>
            by_cases hone : t.Single
            · rw [delete_single _ hs hone] at h ⊢; exact h
            · by_cases hl : left = null
              · by_cases hr : right = null
                · subst hl hr
                  rw [delete_leaf _ hs hone] at h ⊢; exact h
                · subst hl
                  rw [delete_right _ hs hr hone] at h ⊢; exact h
              · by_cases hr : right = null
                · subst hr
                  rw [delete_left _ hs hl hone] at h ⊢; exact h
                -- The only branch that calls on, with less fuel.
                · rw [delete_two _ hs hl hr hone, bind_eq_some] at h ⊢
                  rcases h with ⟨e, he, hre⟩ | ⟨p, hp, hrp⟩
                  · exact Or.inl ⟨e, ih.2 _ _ _ he, hre⟩
                  · exact Or.inr ⟨p, ih.2 _ _ _ hp, hrp⟩
      · intro t start r h
        rw [deleteRightMinNode] at h ⊢
        -- `DeleteRightMinNode` calls `Delete`, with less fuel too.
        cases hm : start.leftmost with
        | null => rw [hm] at h; exact h
        | node ref l m x =>
            simp only [hm, bind_eq_some] at h ⊢
            rcases h with ⟨e, he, hre⟩ | ⟨p, hp, hrp⟩
            · exact Or.inl ⟨e, ih.1 _ _ _ he, hre⟩
            · exact Or.inr ⟨p, ih.1 _ _ _ hp, hrp⟩

/-- A call has one result, however much fuel it is given. -/
theorem delete_unique {t : BST} {value : Int} {fuel fuel' : Nat} {r r' : Except Exn BST}
    (h : delete fuel t value = some r) (h' : delete fuel' t value = some r') : r = r' := by
  have hmono : ∀ k n x, delete n t value = some x → delete (n + k) t value = some x := by
    intro k
    induction k with
    | zero => exact fun _ _ hx => hx
    | succ k ih => exact fun n x hx => (delete_mono (n + k)).1 t value x (ih n x hx)
  have h₁ := hmono fuel' fuel r h
  have h₂ := hmono fuel fuel' r' h'
  rw [Nat.add_comm, h₁] at h₂
  exact Option.some.inj h₂

end BST

/-- The operations of a run. -/
inductive Op where
  | addNode (value : Int)
  | delete (value : Int)

/-- Runs from an empty tree that keep the stored values distinct. A call of
    `Delete` that throws has not written anything yet. -/
def bst : System BST Op where
  init := fun t => t = BST.new
  step := fun t op u =>
    match op with
    | .addNode value => value ∉ t.root.values ∧ u = t.addNode value
    | .delete value => ∃ fuel r, t.delete fuel value = some r ∧ u = r.toOption.getD t

end BinarySearchTree

end BlogSample
