import BlogSample.BinarySearchTree.Delete

/-!
# Deletion as Set Deletion

Which deletions remove their value and nothing else, in a tree that comes out
of any run of insertions and deletions.

`Deletable` is what the defect of `searchParent` leaves: the root, unless its
successor lies deeper than its right child, and the children of the root with
at most one child of their own. A right child also needs the root to have a
left one, because `Delete` looks at the value of the left child first.

## Main definitions

* `Valid`: A sorted tree of distinct nodes.
* `Deletable`: The values `Delete` can remove.
* `Removes`, `Fails`: The two ways a deletion ends.
* `DeletesAsSet`: Deletion is set deletion.

## Theorems

* `delete_deletable`: What `Delete` can remove it removes.
* `delete_not_deletable`: Otherwise it throws or loses another value.
* `reachable_valid`: Every run keeps the tree sorted.
* `deletesAsSet_iff`: When deletion is set deletion.
-/

namespace BlogSample

namespace BinarySearchTree

open DotNet Transition BlogSample.BinaryTree

namespace Node

/-- A node with at most one child. -/
def AtMostOneChild : Node → Prop
  | null => True
  | node _ l _ r => l = null ∨ r = null

/-- The values that `Delete` removes: those that are not there, the root's,
    unless its successor lies deeper than its right child, and those of the
    root's children that have at most one child, a right child only beside
    a left one. -/
def Deletable : Node → Int → Prop
  | null, _ => True
  | node ref l v r, value =>
      value ∉ (node ref l v r).values ∨
      (v = value ∧ (l = null ∨ ∀ ρ a x b, r = node ρ a x b → a = null)) ∨
      (hasValue l value ∧ AtMostOneChild l) ∨
      (hasValue r value ∧ AtMostOneChild r ∧ l ≠ null)

/-! ### Insertion -/

theorem mem_values_add (n : Node) (ref : Nat) (value w : Int) :
    w ∈ (add n ref value).values ↔ w = value ∨ w ∈ n.values := by
  induction n with
  | null => simp [add]
  | node ρ l v r ihl ihr =>
      rw [add]
      by_cases hv : value < v
      · rw [if_pos hv, values_node, values_node, List.mem_append, ihl, List.mem_append, or_assoc]
      · rw [if_neg hv, values_node, values_node, List.mem_append, List.mem_cons, ihr,
          List.mem_append, List.mem_cons]
        tauto

theorem mem_refs_add (n : Node) (ref : Nat) (value : Int) (ρ : Nat) :
    ρ ∈ (add n ref value).refs ↔ ρ = ref ∨ ρ ∈ n.refs := by
  induction n with
  | null => simp [add]
  | node ρ' l v r ihl ihr =>
      rw [add]
      by_cases hv : value < v
      · rw [if_pos hv, refs_node, refs_node, List.mem_append, ihl, List.mem_append, or_assoc]
      · rw [if_neg hv, refs_node, refs_node, List.mem_append, List.mem_cons, ihr,
          List.mem_append, List.mem_cons]
        tauto

theorem sorted_add {n : Node} (hn : Sorted n) (ref : Nat) {value : Int}
    (hv : value ∉ n.values) : Sorted (add n ref value) := by
  induction n with
  | null => exact List.pairwise_singleton _ _
  | node ρ l v r ihl ihr =>
      rw [values_node, List.mem_append, List.mem_cons, not_or, not_or] at hv
      rw [sorted_node] at hn
      rw [add]
      by_cases hlt : value < v
      · rw [if_pos hlt, sorted_node]
        refine ⟨ihl hn.1 hv.1, hn.2.1, fun a ha => ?_, hn.2.2.2⟩
        rcases (mem_values_add l ref value a).mp ha with rfl | ha
        · exact hlt
        · exact hn.2.2.1 a ha
      · rw [if_neg hlt, sorted_node]
        refine ⟨hn.1, ihr hn.2.1 hv.2.2, hn.2.2.1, fun b hb => ?_⟩
        rcases (mem_values_add r ref value b).mp hb with rfl | hb
        · have := hv.2.1
          omega
        · exact hn.2.2.2 b hb

theorem nodup_refs_add {n : Node} (hn : n.refs.Nodup) {ref : Nat} (hr : ref ∉ n.refs)
    (value : Int) : (add n ref value).refs.Nodup := by
  induction n with
  | null => exact List.nodup_singleton _
  | node ρ l v r ihl ihr =>
      rw [refs_node, List.mem_append, List.mem_cons, not_or, not_or] at hr
      rw [refs_node, List.nodup_append, List.nodup_cons] at hn
      rw [add]
      by_cases hlt : value < v
      -- The new node is on the left, and is none of those on the right.
      · rw [if_pos hlt, refs_node, List.nodup_append, List.nodup_cons]
        refine ⟨ihl hn.1 hr.1, hn.2.1, fun a ha b hb => ?_⟩
        rcases (mem_refs_add l ref value a).mp ha with rfl | ha
        · rintro rfl
          rcases List.mem_cons.mp hb with h | h
          · exact hr.2.1 h
          · exact hr.2.2 h
        · exact hn.2.2 a ha b hb
      -- And the other way round.
      · rw [if_neg hlt, refs_node, List.nodup_append, List.nodup_cons]
        refine ⟨hn.1, ⟨fun h => ?_, ihr hn.2.1.2 hr.2.2⟩, fun a ha b hb => ?_⟩
        · rcases (mem_refs_add r ref value ρ).mp h with h | h
          · exact hr.2.1 h.symm
          · exact hn.2.1.1 h
        · rcases List.mem_cons.mp hb with rfl | hb
          · exact hn.2.2 a ha b List.mem_cons_self
          · rcases (mem_refs_add r ref value b).mp hb with rfl | hb
            · rintro rfl
              exact hr.1 ha
            · exact hn.2.2 a ha b (List.mem_cons_of_mem ρ hb)

/-! ### Taking a value out of the traversal -/

theorem filter_values_of_not_mem {n : Node} {value : Int} (h : value ∉ n.values) :
    n.values.filter (· ≠ value) = n.values := by
  refine List.filter_eq_self.mpr (fun a ha => decide_eq_true ?_)
  rintro rfl
  exact h ha

/-- A node with at most one child goes, and its child stays. -/
theorem values_onlyChild {ref : Nat} {a : Node} {v : Int} {b : Node}
    (hn : Sorted (node ref a v b)) (hone : a = null ∨ b = null) :
    (onlyChild a b).values = (node ref a v b).values.filter (· ≠ v) := by
  rw [sorted_node] at hn
  have ha : v ∉ a.values := fun h => absurd (hn.2.2.1 v h) (Int.lt_irrefl v)
  have hb : v ∉ b.values := fun h => absurd (hn.2.2.2 v h) (Int.lt_irrefl v)
  rw [values_node, List.filter_append, List.filter_cons_of_neg (by simp),
    filter_values_of_not_mem ha, filter_values_of_not_mem hb]
  rcases hone with rfl | rfl
  · rw [onlyChild, if_pos rfl]
    rfl
  · by_cases h : a = null
    · subst h
      rw [onlyChild, if_pos rfl]
      rfl
    · rw [onlyChild, if_neg h]
      exact (List.append_nil _).symm

theorem refs_onlyChild (ref : Nat) (a : Node) (v : Int) (b : Node) :
    (onlyChild a b).refs.Sublist (node ref a v b).refs := by
  by_cases h : a = null
  · rw [onlyChild, if_pos h]
    exact (Subtree.right_child ref a v b).refs_sublist
  · rw [onlyChild, if_neg h]
    exact (Subtree.left_child ref a v b).refs_sublist

/-- The value of the left child is not anywhere else. -/
theorem filter_left {ρ : Nat} {l : Node} {x : Int} {r : Node} (hn : Sorted (node ρ l x r))
    {value : Int} (h : value ∈ l.values) :
    (node ρ l x r).values.filter (· ≠ value) = l.values.filter (· ≠ value) ++ x :: r.values := by
  rw [sorted_node] at hn
  have hx := hn.2.2.1 value h
  have hr : value ∉ r.values := fun hr => by
    have := hn.2.2.2 value hr
    omega
  rw [values_node, List.filter_append, List.filter_cons_of_pos (by simp; omega),
    filter_values_of_not_mem hr]

theorem filter_right {ρ : Nat} {l : Node} {x : Int} {r : Node} (hn : Sorted (node ρ l x r))
    {value : Int} (h : value ∈ r.values) :
    (node ρ l x r).values.filter (· ≠ value) = l.values ++ x :: r.values.filter (· ≠ value) := by
  rw [sorted_node] at hn
  have hx := hn.2.2.2 value h
  have hl : value ∉ l.values := fun hl => by
    have := hn.2.2.1 value hl
    omega
  rw [values_node, List.filter_append, List.filter_cons_of_pos (by simp; omega),
    filter_values_of_not_mem hl]

theorem filter_root {ρ : Nat} {l : Node} {x : Int} {r : Node} (hn : Sorted (node ρ l x r)) :
    (node ρ l x r).values.filter (· ≠ x) = l.values ++ r.values := by
  rw [sorted_node] at hn
  have hl : x ∉ l.values := fun h => absurd (hn.2.2.1 x h) (Int.lt_irrefl x)
  have hr : x ∉ r.values := fun h => absurd (hn.2.2.2 x h) (Int.lt_irrefl x)
  rw [values_node, List.filter_append, List.filter_cons_of_neg (by simp),
    filter_values_of_not_mem hl, filter_values_of_not_mem hr]

end Node

namespace BST

open Node

/-- A sorted tree of distinct nodes, none of which has an identity that is
    still to be given out. -/
structure Valid (t : BST) : Prop where
  sorted : Sorted t.root
  nodup : t.root.refs.Nodup
  fresh : ∀ ref ∈ t.root.refs, ref < t.next

theorem Valid.addNode {t : BST} (h : t.Valid) {value : Int} (hv : value ∉ t.root.values) :
    (t.addNode value).Valid where
  sorted := sorted_add h.sorted t.next hv
  nodup := nodup_refs_add h.nodup (fun hr => absurd (h.fresh _ hr) (Nat.lt_irrefl _)) value
  fresh := fun ref hr => by
    rcases (mem_refs_add t.root t.next value ref).mp hr with rfl | hr
    · exact Nat.lt_succ_self _
    · exact Nat.lt_succ_of_lt (h.fresh ref hr)

/-- One tree holds a part of the nodes and of the values of another. -/
structure Within (u t : BST) : Prop where
  values : u.root.values.Sublist t.root.values
  refs : u.root.refs.Sublist t.root.refs
  next : u.next = t.next

theorem Valid.within {t u : BST} (h : t.Valid) (hu : u.Within t) : u.Valid where
  sorted := List.Pairwise.sublist hu.values h.sorted
  nodup := h.nodup.sublist hu.refs
  fresh := fun ref hr => by
    rw [hu.next]
    exact h.fresh ref (hu.refs.subset hr)

/-- The deletion takes its value out of the traversal. -/
structure Removes (t : BST) (value : Int) (u : BST) : Prop where
  values : u.root.values = t.root.values.filter (· ≠ value)
  refs : u.root.refs.Sublist t.root.refs
  next : u.next = t.next

theorem Removes.within {t u : BST} {value : Int} (h : t.Removes value u) : u.Within t where
  values := h.values ▸ List.filter_sublist
  refs := h.refs
  next := h.next

/-- The deletion throws, or takes out a value it was not asked to. -/
inductive Fails (t : BST) (value : Int) : Except Exn BST → Prop
  | throws : Fails t value (.error .nullReference)
  | loses (u : BST) (w : Int) (within : u.Within t) (hmem : w ∈ t.root.values) (hne : w ≠ value)
      (hlost : w ∉ u.root.values) : Fails t value (.ok u)

/-! ### The deletions that work -/

section Works

variable {t : BST} (hvalid : t.Valid) {ρ : Nat} {l : Node} {x : Int} {r : Node}
  (hroot : t.root = node ρ l x r)
include hvalid hroot

/-- No child of the root has the root's value. -/
theorem not_child_root : (hasValue l x || hasValue r x) = false := by
  have hn : Sorted (node ρ l x r) := hroot ▸ hvalid.sorted
  rw [sorted_node] at hn
  rw [hasValue_false (fun h => absurd (hn.2.2.1 x h) (Int.lt_irrefl x)),
    hasValue_false (fun h => absurd (hn.2.2.2 x h) (Int.lt_irrefl x))]
  rfl

/-- The root goes, and its one subtree stays. -/
theorem delete_root_onlyChild (hone : l = null ∨ r = null) :
    ∃ u, t.delete 3 x = some (.ok u) ∧ t.Removes x u := by
  have hn : Sorted (node ρ l x r) := hroot ▸ hvalid.sorted
  have hs : t.search x = node ρ l x r := by
    rw [search, hroot]
    exact search_subtree hn .refl
  by_cases hsingle : t.Single
  · refine ⟨{ t with root := null }, delete_single 2 hs hsingle, ?_, List.nil_sublist _, rfl⟩
    rcases hsingle with ⟨ρ', x', h⟩
    rw [hroot, node.injEq] at h
    rw [hroot, filter_root hn, h.2.1, h.2.2.2]
    rfl
  · have hboth : ¬ (l = null ∧ r = null) := by
      rintro ⟨rfl, rfl⟩
      exact hsingle ⟨ρ, x, hroot⟩
    refine ⟨{ t with root := onlyChild l r }, ?_, ?_, ?_, rfl⟩
    · rw [delete_deep hroot hvalid.sorted hs hone 2 (not_child_root hvalid hroot) hsingle,
        if_neg hboth]
    · rw [hroot]
      exact values_onlyChild hn hone
    · rw [hroot]
      exact refs_onlyChild ρ l x r

/-- The root takes the value of its right child, which has no left one. -/
theorem delete_root_successor {ρr : Nat} {rv : Int} {y : Node} (hl : l ≠ null)
    (hr : r = node ρr null rv y) : ∃ u, t.delete 3 x = some (.ok u) ∧ t.Removes x u := by
  subst hr
  have hn : Sorted (node ρ l x (node ρr null rv y)) := hroot ▸ hvalid.sorted
  have hs : t.search x = node ρ l x (node ρr null rv y) :=
    search_subtree hvalid.sorted (hroot ▸ .refl)
  have hsr : t.search rv = node ρr null rv y :=
    search_subtree hvalid.sorted (hroot ▸ .right_child _ _ _ _)
  have hsub : Subtree (node ρ l x (node ρr null rv y)) t.root := hroot ▸ .refl
  have hmore : ¬ t.Single := not_single hsub hl
  cases l with
  | null => exact absurd rfl hl
  | node ρl ll lv lr =>
      -- The inner call finds the successor as the right child of the root.
      have hlv : lv ≠ rv := by
        rw [sorted_node] at hn
        have h₁ := hn.2.2.1 lv (List.mem_append_right _ List.mem_cons_self)
        have h₂ := hn.2.2.2 rv (List.mem_append_right _ List.mem_cons_self)
        omega
      have hdel : t.delete 1 rv = some (.ok { t with
          root := node ρ (node ρl ll lv lr) x (onlyChild null y) }) := by
        rw [delete_top hroot hvalid.sorted hsr (Or.inl rfl) 0
          (by rw [hasValue, hasValue, beq_self_eq_true, Bool.or_true])]
        simp only [if_neg hlv]
      -- The successor is gone, and its value is written to the root.
      refine ⟨{ t with root := node ρ (node ρl ll lv lr) rv y }, ?_, ?_, ?_, rfl⟩
      · rw [delete_successor hs hl hmore rfl hdel]
        simp only [Except.map, onlyChild, if_true, write, update, setValue]
      · rw [hroot, filter_root hn]
        rfl
      · rw [hroot]
        simp only [refs_node, refs_null, List.nil_append]
        exact List.Sublist.append_left ((List.sublist_cons_self ρr _).cons_cons ρ) _

/-- A left child of the root goes, and its one subtree stays. -/
theorem delete_left_child {value : Int} (hv : hasValue l value = true)
    (hone : AtMostOneChild l) : ∃ u, t.delete 3 value = some (.ok u) ∧ t.Removes value u := by
  have hn : Sorted (node ρ l x r) := hroot ▸ hvalid.sorted
  rcases hasValue_eq_true hv with ⟨ref, a, b, rfl⟩
  have hs : t.search value = node ref a value b :=
    search_subtree hvalid.sorted (hroot ▸ .left_child _ _ _ _)
  refine ⟨{ t with root := node ρ (onlyChild a b) x r }, ?_, ?_, ?_, rfl⟩
  · rw [delete_top hroot hvalid.sorted hs hone 2 (by rw [hv, Bool.true_or])]
    simp only [if_true]
  · rw [hroot, filter_left hn (List.mem_append_right _ List.mem_cons_self), values_node,
      values_onlyChild ((sorted_node ..).mp hn).1 hone]
  · rw [hroot, refs_node, refs_node]
    exact (refs_onlyChild ref a value b).append_right _

/-- A right child of the root goes, beside a left one. -/
theorem delete_right_child {value : Int} (hv : hasValue r value = true)
    (hone : AtMostOneChild r) (hl : l ≠ null) :
    ∃ u, t.delete 3 value = some (.ok u) ∧ t.Removes value u := by
  have hn : Sorted (node ρ l x r) := hroot ▸ hvalid.sorted
  rcases hasValue_eq_true hv with ⟨ref, a, b, rfl⟩
  have hs : t.search value = node ref a value b :=
    search_subtree hvalid.sorted (hroot ▸ .right_child _ _ _ _)
  cases l with
  | null => exact absurd rfl hl
  | node ρl ll lv lr =>
      have hlv : lv ≠ value := by
        rw [sorted_node] at hn
        have h₁ := hn.2.2.1 lv (List.mem_append_right _ List.mem_cons_self)
        have h₂ := hn.2.2.2 value (List.mem_append_right _ List.mem_cons_self)
        omega
      refine ⟨{ t with root := node ρ (node ρl ll lv lr) x (onlyChild a b) }, ?_, ?_, ?_, rfl⟩
      · rw [delete_top hroot hvalid.sorted hs hone 2 (by rw [hv, Bool.or_true])]
        simp only [if_neg hlv]
      · rw [hroot, filter_right hn (List.mem_append_right _ List.mem_cons_self), values_node,
          values_onlyChild ((sorted_node ..).mp hn).2.1 hone]
      · rw [hroot, refs_node, refs_node]
        exact List.Sublist.append_left ((refs_onlyChild ref a value b).cons_cons ρ) _

end Works

/-- What `Delete` can remove it removes. -/
theorem delete_deletable {t : BST} (hvalid : t.Valid) {value : Int}
    (h : Deletable t.root value) : ∃ u, t.delete 3 value = some (.ok u) ∧ t.Removes value u := by
  by_cases hmem : value ∈ t.root.values
  · cases hroot : t.root with
    | null =>
        rw [hroot] at hmem
        exact absurd hmem List.not_mem_nil
    | node ρ l x r =>
        rw [hroot] at h
        rcases h with h | ⟨rfl, h⟩ | ⟨hv, hone⟩ | ⟨hv, hone, hl⟩
        · rw [hroot] at hmem
          exact absurd hmem h
        · by_cases hl : l = null
          · exact delete_root_onlyChild hvalid hroot (Or.inl hl)
          · cases r with
            | null => exact delete_root_onlyChild hvalid hroot (Or.inr rfl)
            | node ρr a rv y =>
                have ha : a = null := h.resolve_left hl ρr a rv y rfl
                exact delete_root_successor hvalid hroot hl (by rw [ha])
        · exact delete_left_child hvalid hroot hv hone
        · exact delete_right_child hvalid hroot hv hone hl
  · exact ⟨t, delete_absent 2 ((search_eq_null_iff hvalid.sorted.ordered value).mpr hmem),
      (filter_values_of_not_mem hmem).symm, List.Sublist.refl _, rfl⟩

/-! ### The deletions that do not -/

/-- The node with the value that the search has found. -/
theorem found_atMostOneChild {t : BST} (hvalid : t.Valid) {value : Int} {ref : Nat} {a b : Node}
    (hs : t.search value = node ref a value b) (hone : a = null ∨ b = null) {n : Node}
    (hn : Subtree n t.root) (hv : hasValue n value = true) : AtMostOneChild n := by
  rcases hasValue_eq_true hv with ⟨ref', a', b', rfl⟩
  rw [← search_subtree hvalid.sorted hn]
  change AtMostOneChild (t.search value)
  rw [hs]
  exact hone

/-- A target with at most one child that lies below the root, but is not
    `Deletable`: the code throws, or cuts the root off. -/
theorem delete_fails_one {t : BST} (hvalid : t.Valid) {value : Int}
    (h : ¬ Deletable t.root value) {ref : Nat} {a b : Node}
    (hsub : Subtree (node ref a value b) t.root) (hone : a = null ∨ b = null) :
    ∃ res, t.delete 3 value = some res ∧ t.Fails value res := by
  have hs : t.search value = node ref a value b := search_subtree hvalid.sorted hsub
  cases hroot : t.root with
  | null =>
      rw [hroot] at h
      exact absurd trivial h
  | node ρ l x r =>
      have hn : Sorted (node ρ l x r) := hroot ▸ hvalid.sorted
      rw [hroot] at h hsub
      rw [Deletable, not_or, not_or, not_or] at h
      by_cases htop : (hasValue l value || hasValue r value) = true
      · rw [delete_top hroot hvalid.sorted hs hone 2 htop]
        cases l with
        | null => exact ⟨_, rfl, .throws⟩
        | node ρl ll lv lr =>
            -- With a left child of the root at hand the target would be deletable.
            exfalso
            rcases Bool.or_eq_true_iff.mp htop with hv | hv
            · exact h.2.2.1 ⟨hv, found_atMostOneChild hvalid hs hone
                (hroot ▸ .left_child ..) hv⟩
            · exact h.2.2.2 ⟨hv, found_atMostOneChild hvalid hs hone
                (hroot ▸ .right_child ..) hv, nofun⟩
      · rw [Bool.not_eq_true] at htop
        have hx : x ≠ value := by
          rintro rfl
          refine h.2.1 ⟨rfl, ?_⟩
          have h₁ : node ref a x b = node ρ l x r :=
            hs.symm.trans (search_subtree hvalid.sorted (hroot ▸ .refl))
          rw [node.injEq] at h₁
          rcases hone with ha | hb
          · exact Or.inl (h₁.2.1.symm.trans ha)
          · refine Or.inr (fun ρr c w d hr => ?_)
            exact absurd (hb.symm.trans (h₁.2.2.2.trans hr)) nofun
        have hmore : ¬ t.Single := not_single_of_ne hroot (hroot.symm ▸ hsub) hx
        rw [delete_deep hroot hvalid.sorted hs hone 2 htop hmore]
        by_cases hboth : a = null ∧ b = null
        · rw [if_pos hboth]
          exact ⟨_, rfl, .throws⟩
        · rw [if_neg hboth]
          refine ⟨_, rfl, .loses _ x ⟨?_, ?_, rfl⟩ ?_ hx ?_⟩
          · rw [hroot]
            exact (values_onlyChild (hn.subtree hsub) hone ▸ List.filter_sublist).trans
              hsub.values_sublist
          · rw [hroot]
            exact (refs_onlyChild ref a value b).trans hsub.refs_sublist
          · rw [hroot]
            exact List.mem_append_right _ List.mem_cons_self
          · intro hlost
            rw [values_onlyChild (hn.subtree hsub) hone] at hlost
            exact root_notMem_of_subtree hn hsub hx (List.mem_filter.mp hlost).1

/-- The successor of a node that is not `Deletable` is not a child of the
    root. -/
theorem successor_deep {ρ : Nat} {l : Node} {x : Int} {r : Node}
    (hn : Sorted (node ρ l x r)) {value : Int} (h : ¬ Deletable (node ρ l x r) value)
    {ref : Nat} {a b : Node} (hsub : Subtree (node ref a value b) (node ρ l x r))
    {ref' : Nat} {m : Int} {y : Node} (hm : b.leftmost = node ref' null m y)
    (hmem : m ∈ b.values) : (hasValue l m || hasValue r m) = false := by
  rw [Deletable, not_or, not_or, not_or] at h
  have hn' := (sorted_node ..).mp hn
  have hin : m ∈ (node ref a value b).values :=
    List.mem_append_right _ (List.mem_cons_of_mem _ hmem)
  cases hsub with
  | refl =>
      -- The target is the root, so its right child has a left one.
      have hl : hasValue l m = false := hasValue_false (fun hl => by
        have h₁ := hn'.2.2.1 m hl
        have h₂ := hn'.2.2.2 m hmem
        omega)
      rw [hl, Bool.false_or]
      cases r with
      | null => rfl
      | node ρr c rv d =>
          refine beq_false_of_ne ?_
          rintro rfl
          refine h.2.1 ⟨rfl, Or.inr (fun ρ' c' w d' hr => ?_)⟩
          rw [node.injEq] at hr
          rcases leftmost_spec ρr c rv d with ⟨ref₁, m₁, r₁, hm₁, hcase⟩
          rw [hm, node.injEq] at hm₁
          rcases hcase with ⟨hc, -⟩ | hsub
          · rw [← hr.2.1]
            exact hc
          · have hlt := ((sorted_node ..).mp hn'.2.1).2.2.1 m₁
              (hsub.values_sublist.subset (List.mem_append_right _ List.mem_cons_self))
            have := hm₁.2.2.1
            omega
  | left _ _ _ _ hsub =>
      have hr : hasValue r m = false := hasValue_false (fun hr => by
        have h₁ := hn'.2.2.1 m (hsub.values_sublist.subset hin)
        have h₂ := hn'.2.2.2 m hr
        omega)
      rw [hasValue_of_right hn'.1 hsub hmem, hr]
      rfl
  | right _ _ _ _ hsub =>
      have hl : hasValue l m = false := hasValue_false (fun hl => by
        have h₁ := hn'.2.2.1 m hl
        have h₂ := hn'.2.2.2 m (hsub.values_sublist.subset hin)
        omega)
      rw [hasValue_of_right hn'.2.1 hsub hmem, hl]
      rfl

/-- A target with two children that is not `Deletable`: deleting the
    successor throws, or cuts the target off together with its left
    subtree. -/
theorem delete_fails_two {t : BST} (hvalid : t.Valid) {value : Int}
    (h : ¬ Deletable t.root value) {ref : Nat} {a b : Node}
    (hsub : Subtree (node ref a value b) t.root) (ha : a ≠ null) (hb : b ≠ null) :
    ∃ res, t.delete 3 value = some res ∧ t.Fails value res := by
  have hs : t.search value = node ref a value b := search_subtree hvalid.sorted hsub
  cases b with
  | null => exact absurd rfl hb
  | node ρb bl bv br =>
      rcases leftmost_spec ρb bl bv br with ⟨ref', m, y, hm, hcase⟩
      have hmsub : Subtree (node ref' null m y) (node ρb bl bv br) := by
        rcases hcase with ⟨rfl, rfl, rfl, rfl⟩ | hcase
        · exact .refl
        · exact .left ρb bl bv br hcase
      have hmroot : Subtree (node ref' null m y) t.root :=
        (hmsub.trans (.right_child ref a value _)).trans hsub
      have hsm : t.search m = node ref' null m y := search_subtree hvalid.sorted hmroot
      cases hroot : t.root with
      | null =>
          rw [hroot] at h
          exact absurd trivial h
      | node ρ l x r =>
          have hmore : ¬ t.Single := not_single hsub ha
          have hdeep : (hasValue l m || hasValue r m) = false :=
            successor_deep (hroot ▸ hvalid.sorted) (hroot ▸ h) (hroot ▸ hsub) hm
              (hmsub.values_sublist.subset (List.mem_append_right _ List.mem_cons_self))
          have hdel := delete_deep hroot hvalid.sorted hsm (Or.inl rfl) 0 hdeep hmore
          rw [delete_successor hs ha hmore hm hdel]
          by_cases hy : y = null
          · rw [if_pos ⟨rfl, hy⟩]
            exact ⟨_, rfl, .throws⟩
          · rw [if_neg (fun h => hy h.2), onlyChild, if_pos rfl]
            -- The target is not in the tree any more when its value is written.
            have hysub : Subtree y (node ρb bl bv br) :=
              (Subtree.right_child ref' null m y).trans hmsub
            have hcut : ref ∉ y.refs := by
              intro hmem
              have hnd := hvalid.nodup.sublist hsub.refs_sublist
              rw [refs_node, List.nodup_append, List.nodup_cons] at hnd
              exact hnd.2.1.1 (hysub.refs_sublist.subset hmem)
            have hwrite : (BST.mk y t.next).write ref (setValue m) = ⟨y, t.next⟩ := by
              rw [write, update_of_not_mem ref _ y hcut]
            have hyroot : Subtree y t.root := (Subtree.right_child ref' null m y).trans hmroot
            have hne : a.values ≠ [] := fun h => ha ((values_eq_nil_iff a).mp h)
            rcases List.exists_mem_of_ne_nil a.values hne with ⟨w, hw⟩
            have hsorted := (sorted_node ..).mp (hvalid.sorted.subtree hsub)
            have hlt := hsorted.2.2.1 w hw
            refine ⟨_, rfl, ?_⟩
            rw [Except.map, hwrite]
            refine .loses _ w ⟨hyroot.values_sublist, hyroot.refs_sublist, rfl⟩ ?_
              (Int.ne_of_lt hlt) ?_
            · exact hsub.values_sublist.subset (List.mem_append_left _ hw)
            · intro hlost
              have := hsorted.2.2.2 w (hysub.values_sublist.subset hlost)
              omega

/-- What is not `Deletable` makes `Delete` throw or lose another value. -/
theorem delete_not_deletable {t : BST} (hvalid : t.Valid) {value : Int}
    (h : ¬ Deletable t.root value) :
    ∃ res, t.delete 3 value = some res ∧ t.Fails value res := by
  have hmem : value ∈ t.root.values := by
    cases hroot : t.root with
    | null =>
        rw [hroot] at h
        exact absurd trivial h
    | node ρ l x r =>
        rw [hroot] at h
        by_contra hc
        exact h (Or.inl hc)
  rcases exists_subtree hmem with ⟨ref, a, b, hsub⟩
  by_cases ha : a = null
  · exact delete_fails_one hvalid h hsub (Or.inl ha)
  · by_cases hb : b = null
    · exact delete_fails_one hvalid h hsub (Or.inr hb)
    · exact delete_fails_two hvalid h hsub ha hb

/-! ### Runs -/

/-- A deletion leaves a valid tree behind, whatever else it does. -/
theorem Valid.delete {t u : BST} (h : t.Valid) {value : Int} {fuel : Nat}
    (hdel : t.delete fuel value = some (.ok u)) : u.Valid := by
  by_cases hd : Deletable t.root value
  · rcases delete_deletable h hd with ⟨u', hu', hr⟩
    rcases Except.ok.inj (delete_unique hdel hu')
    exact h.within hr.within
  · rcases delete_not_deletable h hd with ⟨res, hres, hf⟩
    rcases delete_unique hdel hres
    cases hf with
    | loses _ w hu => exact h.within hu

/-- Every run keeps the tree sorted and its nodes distinct. -/
theorem reachable_valid {t : BST} (h : bst.Reachable t) : t.Valid := by
  refine h.invariant Valid ?_ ?_
  · rintro t rfl
    exact ⟨List.Pairwise.nil, List.Pairwise.nil, nofun⟩
  · intro t op u ht hstep
    cases op with
    | addNode value =>
        rcases hstep with ⟨hv, rfl⟩
        exact ht.addNode hv
    | delete value =>
        rcases hstep with ⟨fuel, res, hdel, rfl⟩
        cases res with
        | error e => exact ht
        | ok u => exact ht.delete hdel

/-- `Delete(value)` returns normally, takes the value out of the in-order
    traversal, leaves the tree ordered, and `Search` finds what remains. -/
def DeletesAsSet (t : BST) (value : Int) : Prop :=
  ∃ fuel u, t.delete fuel value = some (.ok u) ∧
    u.root.values = t.root.values.filter (· ≠ value) ∧ Sorted u.root ∧
    ∀ w, (∃ ref l r, u.search w = node ref l w r) ↔ w ∈ t.root.values ∧ w ≠ value

/-- Deletion is set deletion exactly where the target is absent, or is the
    root or a child of it that the code can take out. -/
theorem deletesAsSet_iff (t : BST) (h : bst.Reachable t) (value : Int) :
    t.DeletesAsSet value ↔ Deletable t.root value := by
  have hvalid := reachable_valid h
  constructor
  · rintro ⟨fuel, u, hdel, hvalues, -⟩
    by_contra hd
    rcases delete_not_deletable hvalid hd with ⟨res, hres, hf⟩
    rcases delete_unique hdel hres
    cases hf with
    | loses _ w _ hmem hne hlost =>
        refine hlost ?_
        rw [hvalues, List.mem_filter]
        exact ⟨hmem, decide_eq_true hne⟩
  · intro hd
    rcases delete_deletable hvalid hd with ⟨u, hu, hr⟩
    have hsorted : Sorted u.root := (hvalid.within hr.within).sorted
    refine ⟨3, u, hu, hr.values, hsorted, fun w => ?_⟩
    rw [search, search_finds_iff hsorted.ordered w, hr.values, List.mem_filter, decide_eq_true_eq]

/-- The trees of a list of insertions. -/
theorem reachable_addNode {t : BST} (h : bst.Reachable t) :
    ∀ vs : List Int, vs.Nodup → (∀ v ∈ vs, v ∉ t.root.values) →
      bst.Reachable (vs.foldl addNode t) := by
  intro vs
  induction vs generalizing t with
  | nil => exact fun _ _ => h
  | cons v vs ih =>
      intro hnd hout
      rw [List.nodup_cons] at hnd
      have hstep : bst.step t (.addNode v) (t.addNode v) := ⟨hout v List.mem_cons_self, rfl⟩
      refine ih (.step t (.addNode v) _ h hstep) hnd.2 ?_
      intro w hw hmem
      rcases (mem_values_add t.root t.next v w).mp hmem with rfl | hmem
      · exact hnd.1 hw
      · exact hout w (List.mem_cons_of_mem v hw) hmem

/-- The left leaf of a tree of three values goes. -/
theorem deletesAsSet_left_leaf : DeletesAsSet ([2, 1, 3].foldl addNode new) 1 :=
  (deletesAsSet_iff _ (reachable_addNode (.init _ rfl) [2, 1, 3] (by decide) (by decide)) 1).mpr
    (Or.inr (Or.inr (Or.inl ⟨rfl, Or.inl rfl⟩)))

/-- The deletion of the sample's own `Main` throws: the parent of the
    successor 5 of 3 is not found. -/
theorem delete_main_throws :
    bst.Reachable ([7, 3, 10, 1, 5, 9, 12, 2].foldl addNode new) ∧
    delete 3 ([7, 3, 10, 1, 5, 9, 12, 2].foldl addNode new) 3 = some (.error .nullReference) ∧
    ¬ DeletesAsSet ([7, 3, 10, 1, 5, 9, 12, 2].foldl addNode new) 3 := by
  have hdel : delete 3 ([7, 3, 10, 1, 5, 9, 12, 2].foldl addNode new) 3
      = some (.error .nullReference) := by rfl
  refine ⟨reachable_addNode (.init _ rfl) _ (by decide) (by decide), hdel, ?_⟩
  rintro ⟨fuel, u, hu, -⟩
  exact absurd (delete_unique hu hdel) nofun

end BST

end BinarySearchTree

end BlogSample
