import BlogSample.BinarySearchTree.Bst

/-!
# Deletion from the Binary Search Tree

What `Delete` does in a sorted tree, branch by branch.

`searchParent` turns the wrong way: below the root it goes left for the values
that are larger than the node and right for the smaller ones. In an ordered
tree it therefore finds a parent only when that is the root itself, and
`searchParent_sorted` is the one fact everything else follows from. A leaf
that lies deeper makes `Delete` dereference a `null` parent; a deeper node
with one child takes `Delete` for the root, and the child becomes the whole
tree.

## Main definitions

* `Sorted`: The values are in strictly increasing order.
* `onlyChild`: The child of a node that has at most one.

## Theorems

* `search_subtree`: In a sorted tree the search finds the one node.
* `searchParent_sorted`: The only parent that is found is the root.
* `delete_top`: A child of the root with at most one child.
* `delete_deep`: Any other node with at most one child.
* `delete_successor`: A node with two children.
-/

namespace BlogSample

namespace BinarySearchTree

open DotNet Transition BlogSample.BinaryTree

namespace Node

/-- The values are in strictly increasing order, so they are distinct. -/
def Sorted (n : Node) : Prop :=
  n.values.Pairwise (fun a b => a < b)

theorem sorted_node (ref : Nat) (l : Node) (v : Int) (r : Node) :
    Sorted (node ref l v r) ↔ Sorted l ∧ Sorted r ∧ (∀ a ∈ l.values, a < v) ∧
      ∀ b ∈ r.values, v < b := by
  rw [Sorted, pairwise_values_node]
  constructor
  · rintro ⟨hl, hr, hlv, hvr, -⟩
    exact ⟨hl, hr, hlv, hvr⟩
  · rintro ⟨hl, hr, hlv, hvr⟩
    exact ⟨hl, hr, hlv, hvr, fun a ha b hb => Int.lt_trans (hlv a ha) (hvr b hb)⟩

theorem Sorted.ordered {n : Node} (h : Sorted n) : Ordered n :=
  List.Pairwise.imp (fun hlt => Int.le_of_lt hlt) h

theorem Sorted.subtree {s n : Node} (h : Sorted n) (hs : Subtree s n) : Sorted s :=
  List.Pairwise.sublist hs.values_sublist h

/-! ### Searching -/

/-- In a sorted tree the search finds the node that holds the value. -/
theorem search_subtree {n : Node} (hn : Sorted n) {ref : Nat} {l : Node} {v : Int} {r : Node}
    (h : Subtree (node ref l v r) n) : search n v = node ref l v r := by
  have hv : v ∈ (node ref l v r).values := by
    rw [values_node]
    exact List.mem_append_right _ List.mem_cons_self
  induction h with
  | refl => rw [search, if_pos rfl]
  | left ρ a x b h ih =>
      rw [sorted_node] at hn
      have hlt := hn.2.2.1 v (h.values_sublist.subset hv)
      rw [search, if_neg (by omega), if_pos (by omega)]
      exact ih hn.1
  | right ρ a x b h ih =>
      rw [sorted_node] at hn
      have hlt := hn.2.2.2 v (h.values_sublist.subset hv)
      rw [search, if_neg (by omega), if_neg (by omega)]
      exact ih hn.2.1

theorem exists_subtree {n : Node} {v : Int} (h : v ∈ n.values) :
    ∃ ref l r, Subtree (node ref l v r) n := by
  induction n with
  | null => exact absurd h List.not_mem_nil
  | node ρ a x b iha ihb =>
      rw [values_node, List.mem_append, List.mem_cons] at h
      rcases h with h | rfl | h
      · rcases iha h with ⟨ref, l, r, hs⟩
        exact ⟨ref, l, r, .left ρ a x b hs⟩
      · exact ⟨ρ, a, b, .refl⟩
      · rcases ihb h with ⟨ref, l, r, hs⟩
        exact ⟨ref, l, r, .right ρ a x b hs⟩

/-! ### Searching for the parent -/

theorem hasValue_false {n : Node} {value : Int} (h : value ∉ n.values) :
    hasValue n value = false := by
  cases n with
  | null => rfl
  | node ref l v r =>
      rw [values_node, List.mem_append, List.mem_cons, not_or, not_or] at h
      exact beq_false_of_ne (Ne.symm h.2.1)

theorem searchParent_node (ref : Nat) (l : Node) (v : Int) (r : Node) (value : Int)
    (h : (hasValue l value || hasValue r value) = false) :
    searchParent (node ref l v r) value
      = if l ≠ null ∧ v < value then searchParent l value
        else if r ≠ null ∧ v ≥ value then searchParent r value else null := by
  rw [searchParent, h]
  rfl

/-- Above all values the search for the parent keeps going left. -/
theorem searchParent_above {n : Node} {value : Int} (h : ∀ a ∈ n.values, a < value) :
    searchParent n value = null := by
  have hout : ∀ s, Subtree s n → hasValue s value = false := fun s hs =>
    hasValue_false (fun hm => absurd (h value (hs.values_sublist.subset hm)) (Int.lt_irrefl value))
  induction n with
  | null => rfl
  | node ref l v r ihl _ =>
      have hv : v < value := h v (List.mem_append_right _ List.mem_cons_self)
      rw [searchParent_node ref l v r value (by
        rw [hout l (.left_child ref l v r), hout r (.right_child ref l v r)]; rfl)]
      by_cases hl : l = null
      · rw [if_neg (fun hc => hc.1 hl), if_neg (fun hc => by omega)]
      · rw [if_pos ⟨hl, hv⟩]
        exact ihl (fun a ha => h a (List.mem_append_left _ ha))
          (fun s hs => hout s (.left ref l v r hs))

/-- Below all values it keeps going right. -/
theorem searchParent_below {n : Node} {value : Int} (h : ∀ a ∈ n.values, value < a) :
    searchParent n value = null := by
  have hout : ∀ s, Subtree s n → hasValue s value = false := fun s hs =>
    hasValue_false (fun hm => absurd (h value (hs.values_sublist.subset hm)) (Int.lt_irrefl value))
  induction n with
  | null => rfl
  | node ref l v r _ ihr =>
      have hv : value < v := h v (List.mem_append_right _ List.mem_cons_self)
      rw [searchParent_node ref l v r value (by
        rw [hout l (.left_child ref l v r), hout r (.right_child ref l v r)]; rfl),
        if_neg (fun hc => by omega)]
      by_cases hr : r = null
      · rw [if_neg (fun hc => hc.1 hr)]
      · rw [if_pos ⟨hr, by omega⟩]
        exact ihr (fun a ha => h a (List.mem_append_right _ (List.mem_cons_of_mem v ha)))
          (fun s hs => hout s (.right ref l v r hs))

/-- In a sorted tree the only parent that is found is the root: on one side
    of the root everything is too small for the walk, on the other too
    large. -/
theorem searchParent_sorted {ref : Nat} {l : Node} {v : Int} {r : Node}
    (hn : Sorted (node ref l v r)) (value : Int) :
    searchParent (node ref l v r) value
      = if hasValue l value || hasValue r value then node ref l v r else null := by
  rw [sorted_node] at hn
  by_cases hc : (hasValue l value || hasValue r value) = true
  · rw [searchParent, if_pos hc, if_pos hc]
  · rw [searchParent_node ref l v r value (Bool.not_eq_true _ ▸ hc), if_neg hc]
    by_cases hlt : v < value
    · have hl : searchParent l value = null :=
        searchParent_above (fun a ha => Int.lt_trans (hn.2.2.1 a ha) hlt)
      rw [hl, if_neg (fun hc => by omega : ¬ (r ≠ null ∧ v ≥ value)), ite_self]
    · have hr : searchParent r value = null :=
        searchParent_below (fun b hb => by have := hn.2.2.2 b hb; omega)
      rw [if_neg (fun hc => hlt hc.2), hr, ite_self]

/-- The value of the root is in no subtree below it. -/
theorem root_notMem_of_subtree {ρ : Nat} {l : Node} {x : Int} {r : Node}
    (hn : Sorted (node ρ l x r)) {ref : Nat} {a : Node} {v : Int} {b : Node}
    (h : Subtree (node ref a v b) (node ρ l x r)) (hx : x ≠ v) :
    x ∉ (node ref a v b).values := by
  intro hin
  rw [sorted_node] at hn
  cases h with
  | refl => exact hx rfl
  | left _ _ _ _ h =>
      exact absurd (hn.2.2.1 x (h.values_sublist.subset hin)) (Int.lt_irrefl x)
  | right _ _ _ _ h =>
      exact absurd (hn.2.2.2 x (h.values_sublist.subset hin)) (Int.lt_irrefl x)

/-- Below a node with larger values than its own, none of them is the value
    of a root above it. -/
theorem hasValue_of_right {n : Node} (hn : Sorted n) {ref : Nat} {a : Node} {v : Int} {b : Node}
    (h : Subtree (node ref a v b) n) {m : Int} (hm : m ∈ b.values) : hasValue n m = false := by
  have hmem : m ∈ (node ref a v b).values := by
    rw [values_node]
    exact List.mem_append_right _ (List.mem_cons_of_mem v hm)
  cases h with
  | refl =>
      rw [sorted_node] at hn
      exact beq_false_of_ne (Int.ne_of_lt (hn.2.2.2 m hm))
  | left ρ l x r h =>
      rw [sorted_node] at hn
      exact beq_false_of_ne (Int.ne_of_gt (hn.2.2.1 m (h.values_sublist.subset hmem)))
  | right ρ l x r h =>
      rw [sorted_node] at hn
      exact beq_false_of_ne (Int.ne_of_lt (hn.2.2.2 m (h.values_sublist.subset hmem)))

theorem hasValue_eq_true {n : Node} {value : Int} (h : hasValue n value = true) :
    ∃ ref l r, n = node ref l value r := by
  cases n with
  | null => cases h
  | node ref l v r =>
      rw [hasValue, beq_iff_eq] at h
      exact ⟨ref, l, r, by rw [h]⟩

/-- The child of a node that has at most one. -/
def onlyChild (a b : Node) : Node :=
  if a = null then b else a

end Node

namespace BST

open Node

/-! ### The branches of a deletion in a sorted tree -/

section Target

variable {t : BST} {ρ : Nat} {l : Node} {x : Int} {r : Node} (hroot : t.root = node ρ l x r)
  (hsorted : Sorted t.root) {value : Int} {ref : Nat} {a b : Node}
  (hs : t.search value = node ref a value b) (hone : a = null ∨ b = null) (fuel : Nat)
include hroot hsorted hs hone

/-- A child of the root with at most one child is replaced by that child,
    as long as the root has a left one to compare with. -/
theorem delete_top (htop : (hasValue l value || hasValue r value) = true) :
    t.delete (fuel + 1) value = some (match l with
      | null => .error .nullReference
      | node _ _ lv _ => .ok { t with
          root :=
            if lv = value then node ρ (onlyChild a b) x r else node ρ l x (onlyChild a b) }) := by
  -- The value is in a child of the root, so the root is its parent.
  have hparent : t.searchParent value = node ρ l x r := by
    rw [searchParent, hroot, searchParent_sorted (hroot ▸ hsorted), if_pos htop]
  -- So the tree has more than one node, and the first branch is not taken.
  have hmore : ¬ t.Single := by
    rintro ⟨ρ', v', h⟩
    rw [hroot, node.injEq] at h
    rw [h.2.1, h.2.2.2] at htop
    cases htop
  have hwrite : ∀ f, t.write ρ f = { t with root := f (node ρ l x r) } := fun f => by
    rw [write, hroot, update, if_pos rfl]
  by_cases ha : a = null
  · by_cases hb : b = null
    -- A leaf.
    · subst ha hb
      rw [delete_leaf fuel hs hmore, hparent]
      cases l with
      | null => rfl
      | node ρl ll lv lr =>
          by_cases hlv : lv = value
          · simp only [dropLeaf, if_pos hlv, hwrite]
            rfl
          · have hr : hasValue r value = true := by
              rw [hasValue, beq_false_of_ne hlv, Bool.false_or] at htop
              exact htop
            rcases hasValue_eq_true hr with ⟨ρr, rl, rr, rfl⟩
            simp only [dropLeaf, if_neg hlv, if_true, hwrite]
            rfl
    -- Only a right child.
    · subst ha
      rw [delete_right fuel hs hb hmore, hparent]
      cases l with
      | null => rfl
      | node ρl ll lv lr =>
          by_cases hlv : lv = value
          · simp only [replaceChild, if_pos hlv, hwrite]
            rfl
          · simp only [replaceChild, if_neg hlv, hwrite]
            rfl
  -- Only a left child.
  · have hb : b = null := hone.resolve_left ha
    subst hb
    rw [delete_left fuel hs ha hmore, hparent]
    cases l with
    | null => rfl
    | node ρl ll lv lr =>
        by_cases hlv : lv = value
        · simp only [replaceChild, if_pos hlv, hwrite, onlyChild, if_neg ha]
          rfl
        · simp only [replaceChild, if_neg hlv, hwrite, onlyChild, if_neg ha]
          rfl

/-- Where no parent is found, a leaf throws, and a node with one child hands
    the whole tree over to it. -/
theorem delete_deep (hdeep : (hasValue l value || hasValue r value) = false)
    (hmore : ¬ t.Single) :
    t.delete (fuel + 1) value = some (if a = null ∧ b = null then .error .nullReference
      else .ok { t with root := onlyChild a b }) := by
  have hparent : t.searchParent value = null := by
    rw [searchParent, hroot, searchParent_sorted (hroot ▸ hsorted), hdeep]
    rfl
  by_cases ha : a = null
  · by_cases hb : b = null
    · subst ha hb
      rw [delete_leaf fuel hs hmore, hparent]
      rfl
    · subst ha
      rw [delete_right fuel hs hb hmore, hparent, if_neg (fun h => hb h.2), onlyChild, if_pos rfl]
      rfl
  · have hb : b = null := hone.resolve_left ha
    subst hb
    rw [delete_left fuel hs ha hmore, hparent, if_neg (fun h => ha h.1), onlyChild, if_neg ha]
    rfl

end Target

/-- A call that finds two children deletes the successor first and then
    writes its value over the target's. -/
theorem delete_successor {t : BST} {value : Int} {ref : Nat} {a b : Node}
    (hs : t.search value = node ref a value b) (ha : a ≠ null) (hmore : ¬ t.Single) {ρ : Nat}
    {m : Int} {y : Node} (hm : b.leftmost = node ρ null m y) {fuel : Nat} {res : Except Exn BST}
    (hdel : t.delete fuel m = some res) :
    t.delete (fuel + 2) value = some (res.map (fun u => u.write ref (setValue m))) := by
  have hb : b ≠ null := by
    rintro rfl
    cases hm
  rw [delete_two (fuel + 1) hs ha hb hmore, bind_eq_some]
  have hmin : deleteRightMinNode (fuel + 1) t b = some (res.map (fun u => (m, u))) := by
    simp only [deleteRightMinNode, hm]
    rw [bind_eq_some]
    cases res with
    | error e => exact Or.inl ⟨e, hdel, rfl⟩
    | ok u => exact Or.inr ⟨u, hdel, rfl⟩
  rw [hmin]
  cases res with
  | error e => exact Or.inl ⟨e, rfl, rfl⟩
  | ok u => exact Or.inr ⟨(m, u), rfl, rfl⟩

end BST

end BinarySearchTree

end BlogSample
