import BlogSample.AvlTree.Insertion
import BlogSample.BinarySearchTree.SetDeletion

/-!
# Deletion from the AVL Tree

`AVL_TreeSample.BST` has the `Delete`, `DeleteRightMinNode`, `Search` and
`SearchParent` of the binary search tree sample, line for line, and none of
them rotates. What keeps most deletions from unbalancing the tree is the
wrong turn of `SearchParent`: a node below the children of the root is never
unlinked, so either nothing happens to the shape or a whole subtree becomes
the tree. Only a child of the root can really be taken out from under it.

## Main definitions

* `avl`: Runs of insertions of new values and of deletions that return.
* `KeepsBalance`: The deletions that leave a balanced tree balanced.
* `Keeps`: The steps that do.

## Theorems

* `addNode_valid`: Insertion with rotations keeps a tree valid.
* `delete_one_balanced_iff`: Deleting a node with at most one child.
* `delete_two_balanced_iff`: Deleting a node with two children.
* `delete_balanced_iff`: When a deletion keeps the tree balanced.
* `avl_balanced`: Balance over runs of insertions and deletions.
-/

namespace BlogSample

namespace AvlTree

open DotNet Transition BlogSample.BinaryTree BinarySearchTree Node

/-- Runs of `AddNode` with values that are not stored yet and of calls of
    `Delete` that return normally. -/
def avl : System BST Op where
  init := fun t => t = BST.new
  step := fun t op u =>
    match op with
    | .addNode value => value ∉ t.root.values ∧ addNode t value = .ok u
    | .delete value => ∃ fuel, t.delete fuel value = some (.ok u)

/-- A child that is taken out from under the root is not on the lower side:
    the left child if it has the value and at most one child, or the right
    one, which also goes when the root has the value and the right child is
    its successor. -/
def KeepsBalance : Node → Int → Prop
  | null, _ => True
  | node _ left v right, value =>
      (hasValue left value = true ∧ AtMostOneChild left → height right ≤ height left) ∧
      (hasValue right value = true ∧ AtMostOneChild right → height left ≤ height right) ∧
      (v = value ∧ (∃ ref rv y, right = node ref null rv y) → height left ≤ height right)

/-- The steps that keep the balance: every insertion, and the deletions that
    take no node from the lower side of the root. -/
def Keeps (t : BST) : Op → Prop
  | .addNode _ => True
  | .delete value => KeepsBalance t.root value

/-! ### Insertion keeps the nodes distinct -/

theorem leftRotate_refs {n m : Node} (h : leftRotate n = .ok m) : m.refs = n.refs := by
  cases n with
  | null => cases h
  | node ref l v r =>
      cases r with
      | null => cases h
      | node ref' l' v' r' =>
          rw [← Except.ok.inj h]
          simp only [refs_node, List.append_assoc, List.cons_append]

theorem rightRotate_refs {n m : Node} (h : rightRotate n = .ok m) : m.refs = n.refs := by
  cases n with
  | null => cases h
  | node ref l v r =>
      cases l with
      | null => cases h
      | node ref' l' v' r' =>
          rw [← Except.ok.inj h]
          simp only [refs_node, List.append_assoc, List.cons_append]

/-- Rebalancing keeps the nodes in their order. -/
theorem rebalance_refs {n m : Node} (h : rebalance n = .ok m) : m.refs = n.refs := by
  cases n with
  | null => cases h
  | node ref l v r =>
      rw [rebalance] at h
      by_cases hright : height r - height l > 1
      · rw [if_pos hright] at h
        rcases bind_eq_ok h with ⟨r', hr', hm⟩
        -- The rotation inside moves nodes, and so does the one around it.
        have hrefs : r'.refs = r.refs := by
          by_cases hlean : r ≠ null ∧ rightHeight r < leftHeight r
          · rw [if_pos hlean] at hr'
            exact rightRotate_refs hr'
          · rw [if_neg hlean] at hr'
            rw [Except.ok.inj hr']
        rw [leftRotate_refs hm, refs_node, refs_node, hrefs]
      · rw [if_neg hright] at h
        by_cases hleft : height l - height r > 1
        · rw [if_pos hleft] at h
          rcases bind_eq_ok h with ⟨l', hl', hm⟩
          have hrefs : l'.refs = l.refs := by
            by_cases hlean : l ≠ null ∧ leftHeight l < rightHeight l
            · rw [if_pos hlean] at hl'
              exact leftRotate_refs hl'
            · rw [if_neg hlean] at hl'
              rw [Except.ok.inj hl']
          rw [rightRotate_refs hm, refs_node, refs_node, hrefs]
        · rw [if_neg hleft] at h
          rw [Except.ok.inj h]

/-- Insertion adds the new node and no other. -/
theorem add_refs {n : Node} {ref : Nat} {value : Int} :
    ∀ {m : Node}, add n ref value = .ok m → m.refs.Perm (ref :: n.refs) := by
  induction n with
  | null =>
      intro m h
      rw [← Except.ok.inj h]
      exact List.Perm.refl _
  | node ρ l v r ihl ihr =>
      intro m h
      rw [add] at h
      by_cases hv : value < v
      · rw [if_pos hv] at h
        rcases bind_eq_ok h with ⟨l', hl', hm⟩
        rw [rebalance_refs hm, refs_node, refs_node]
        exact (ihl hl').append_right _
      · rw [if_neg hv] at h
        rcases bind_eq_ok h with ⟨r', hr', hm⟩
        rw [rebalance_refs hm, refs_node, refs_node]
        have hinsert := ((ihr hr').cons ρ).append_left l.refs
        have hswap := (List.Perm.swap ref ρ r.refs).append_left l.refs
        exact (hinsert.trans hswap).trans List.perm_middle

theorem addNode_refs {t u : BST} {value : Int} (h : addNode t value = .ok u) :
    u.root.refs.Perm (t.next :: t.root.refs) ∧ u.next = t.next + 1 := by
  rw [addNode] at h
  cases hroot : t.root with
  | null =>
      rw [hroot] at h
      rw [← Except.ok.inj h]
      exact ⟨List.Perm.refl _, rfl⟩
  | node ρ l v r =>
      rw [hroot] at h
      rcases bind_eq_ok h with ⟨m, hadd, hu⟩
      rw [← Except.ok.inj hu]
      exact ⟨add_refs hadd, rfl⟩

/-- An ordered tree of distinct values is sorted. -/
theorem sorted_of_ordered {n : Node} (h : Ordered n) (hnd : n.values.Nodup) : Sorted n := by
  have hboth := List.Pairwise.and h hnd
  exact hboth.imp (fun hab => by omega)

/-- Insertion of a new value keeps a tree valid and balanced. -/
theorem addNode_valid {t u : BST} (hvalid : t.Valid) (hbal : Balanced t.root) {value : Int}
    (hv : value ∉ t.root.values) (h : addNode t value = .ok u) :
    u.Valid ∧ Balanced u.root := by
  rcases addNode_spec hbal value with ⟨u', hu', hins⟩
  rcases Except.ok.inj (h.symm.trans hu')
  rcases addNode_refs h with ⟨hrefs, hnext⟩
  refine ⟨⟨?_, ?_, ?_⟩, hins.balanced⟩
  · refine sorted_of_ordered (hins.ordered hvalid.sorted.ordered) ?_
    rw [hins.perm.nodup_iff, List.nodup_cons]
    exact ⟨hv, hvalid.sorted.imp (fun hab => Int.ne_of_lt hab)⟩
  · rw [hrefs.nodup_iff, List.nodup_cons]
    exact ⟨fun hr => absurd (hvalid.fresh _ hr) (Nat.lt_irrefl _), hvalid.nodup⟩
  · intro ref hr
    rw [hnext]
    rcases List.mem_cons.mp (hrefs.subset hr) with hr | hr
    · rw [hr]
      exact Nat.lt_succ_self _
    · exact Nat.lt_succ_of_lt (hvalid.fresh ref hr)

/-! ### The shape a deletion leaves -/

/-- A node that goes hands its place to its only child, one level lower. -/
theorem height_onlyChild (ref : Nat) {a : Node} (v : Int) {b : Node} (hone : a = null ∨ b = null) :
    height (onlyChild a b) + 1 = height (node ref a v b) := by
  rw [height_node]
  by_cases ha : a = null
  · have hb := height_nonneg b
    rw [onlyChild, if_pos ha, ha, height_null]
    omega
  · have hpos := height_nonneg a
    rw [onlyChild, if_neg ha, hone.resolve_left ha, height_null]
    omega

theorem balanced_onlyChild {ref : Nat} {a : Node} {v : Int} {b : Node}
    (h : Balanced (node ref a v b)) : Balanced (onlyChild a b) := by
  by_cases ha : a = null
  · rw [onlyChild, if_pos ha]
    exact h.2.1
  · rw [onlyChild, if_neg ha]
    exact h.1

/-- Every subtree of a balanced tree is balanced. -/
theorem balanced_subtree {s n : Node} (h : Balanced n) (hs : Subtree s n) : Balanced s := by
  induction hs with
  | refl => exact h
  | left ref l v r _ ih => exact ih h.1
  | right ref l v r _ ih => exact ih h.2.1

/-- Writing a value changes no height. -/
theorem height_update_setValue (n : Node) (ref : Nat) (m : Int) :
    height (n.update ref (setValue m)) = height n := by
  induction n with
  | null => rfl
  | node ρ l v r ihl ihr =>
      rw [update]
      by_cases href : ρ = ref
      · rw [if_pos href]
        rfl
      · rw [if_neg href, height_node, height_node, ihl, ihr]

theorem balanced_update_setValue (n : Node) (ref : Nat) (m : Int) :
    Balanced (n.update ref (setValue m)) ↔ Balanced n := by
  induction n with
  | null => exact Iff.rfl
  | node ρ l v r ihl ihr =>
      rw [update]
      by_cases href : ρ = ref
      · rw [if_pos href]
        exact Iff.rfl
      · rw [if_neg href]
        simp only [Balanced, ihl, ihr, height_update_setValue]

/-- A deletion that takes no child of the root is one that keeps the balance. -/
theorem keepsBalance_of_deep {ρ : Nat} {l : Node} {x : Int} {r : Node} {value : Int}
    (hdeep : (hasValue l value || hasValue r value) = false)
    (hx : x = value → ∀ ref rv y, r = node ref null rv y → l = null) :
    KeepsBalance (node ρ l x r) value := by
  rw [Bool.or_eq_false_iff] at hdeep
  rw [KeepsBalance, hdeep.1, hdeep.2]
  refine ⟨fun h => absurd h.1 Bool.false_ne_true, fun h => absurd h.1 Bool.false_ne_true, ?_⟩
  intro h
  rcases h with ⟨hv, ref, rv, y, hr⟩
  rw [hx hv ref rv y hr]
  exact height_nonneg r

/-- In a sorted tree there is one node for a value. -/
theorem subtree_unique {n : Node} (hn : Sorted n) {ref ref' : Nat} {a b a' b' : Node} {v : Int}
    (h : Subtree (node ref a v b) n) (h' : Subtree (node ref' a' v b') n) :
    node ref a v b = node ref' a' v b' :=
  (search_subtree hn h).symm.trans (search_subtree hn h')

/-- Nor does a deletion of a node with two children that is not the root. -/
theorem keepsBalance_of_two {ρ : Nat} {l : Node} {x : Int} {r : Node}
    (hn : Sorted (node ρ l x r)) {value : Int} {ref : Nat} {a b : Node}
    (hsub : Subtree (node ref a value b) (node ρ l x r)) (ha : a ≠ null) (hb : b ≠ null)
    (hx : x ≠ value) : KeepsBalance (node ρ l x r) value := by
  have htwo : ∀ s, Subtree s (node ρ l x r) → hasValue s value = true → ¬ AtMostOneChild s := by
    intro s hs hv hone
    rcases hasValue_eq_true hv with ⟨ref', a', b', rfl⟩
    have heq := subtree_unique hn hs hsub
    rw [node.injEq] at heq
    rw [heq.2.1, heq.2.2.2] at hone
    rcases hone with h | h
    · exact ha h
    · exact hb h
  rw [KeepsBalance]
  exact ⟨fun h => absurd h.2 (htwo l (.left_child ..) h.1),
    fun h => absurd h.2 (htwo r (.right_child ..) h.1), fun h => absurd h.1 hx⟩

section Target

variable {t : BST} (hvalid : t.Valid) (hbal : Balanced t.root) {ρ : Nat} {l : Node} {x : Int}
  {r : Node} (hroot : t.root = node ρ l x r)
include hvalid hbal hroot

/-- Taking the left child of the root out. -/
theorem delete_left_balanced_iff {value : Int} {ref : Nat} {a b : Node}
    (hl : l = node ref a value b) (hone : a = null ∨ b = null) :
    Balanced (node ρ (onlyChild a b) x r) ↔ KeepsBalance (node ρ l x r) value := by
  have hn : Sorted (node ρ l x r) := hroot ▸ hvalid.sorted
  have hb : Balanced (node ρ l x r) := hroot ▸ hbal
  have hheight := height_onlyChild ref value hone
  rw [sorted_node] at hn
  subst hl
  have hin : value ∈ (node ref a value b).values :=
    List.mem_append_right _ List.mem_cons_self
  -- The value is neither the root's nor the right child's.
  have hx : x ≠ value := Int.ne_of_gt (hn.2.2.1 value hin)
  have hr : hasValue r value = false := hasValue_false (fun hr => by
    have h₁ := hn.2.2.1 value hin
    have h₂ := hn.2.2.2 value hr
    omega)
  have hkeeps : KeepsBalance (node ρ (node ref a value b) x r) value ↔
      height r ≤ height (node ref a value b) := by
    rw [KeepsBalance, hr]
    constructor
    · intro h
      exact h.1 ⟨beq_self_eq_true value, hone⟩
    · intro h
      exact ⟨fun _ => h, fun h' => absurd h'.1 Bool.false_ne_true, fun h' => absurd h'.1 hx⟩
  rw [hkeeps]
  unfold Balanced
  rcases hb with ⟨hbl, hbr, hlr, hrl⟩
  constructor
  · intro h
    omega
  · intro h
    exact ⟨balanced_onlyChild hbl, hbr, by omega, by omega⟩

/-- Taking the right child of the root out. -/
theorem delete_right_balanced_iff {value : Int} {ref : Nat} {a b : Node}
    (hr : r = node ref a value b) (hone : a = null ∨ b = null) :
    Balanced (node ρ l x (onlyChild a b)) ↔ KeepsBalance (node ρ l x r) value := by
  have hn : Sorted (node ρ l x r) := hroot ▸ hvalid.sorted
  have hb : Balanced (node ρ l x r) := hroot ▸ hbal
  have hheight := height_onlyChild ref value hone
  rw [sorted_node] at hn
  subst hr
  have hin : value ∈ (node ref a value b).values :=
    List.mem_append_right _ List.mem_cons_self
  -- The value is neither the root's nor the left child's.
  have hx : x ≠ value := Int.ne_of_lt (hn.2.2.2 value hin)
  have hl : hasValue l value = false := hasValue_false (fun hl => by
    have h₁ := hn.2.2.1 value hl
    have h₂ := hn.2.2.2 value hin
    omega)
  have hkeeps : KeepsBalance (node ρ l x (node ref a value b)) value ↔
      height l ≤ height (node ref a value b) := by
    rw [KeepsBalance, hl]
    constructor
    · intro h
      exact h.2.1 ⟨beq_self_eq_true value, hone⟩
    · intro h
      exact ⟨fun h' => absurd h'.1 Bool.false_ne_true, fun _ => h, fun h' => absurd h'.1 hx⟩
  rw [hkeeps]
  unfold Balanced
  rcases hb with ⟨hbl, hbr, hlr, hrl⟩
  constructor
  · intro h
    omega
  · intro h
    exact ⟨hbl, balanced_onlyChild hbr, by omega, by omega⟩

end Target

/-- A node with at most one child goes. -/
theorem delete_one_balanced_iff {t u : BST} (hvalid : t.Valid) (hbal : Balanced t.root)
    {value : Int} {ref : Nat} {a b : Node} (hsub : Subtree (node ref a value b) t.root)
    (hone : a = null ∨ b = null) {fuel : Nat}
    (hdel : t.delete (fuel + 1) value = some (.ok u)) :
    Balanced u.root ↔ KeepsBalance t.root value := by
  have hs : t.search value = node ref a value b := search_subtree hvalid.sorted hsub
  cases hroot : t.root with
  | null =>
      rw [hroot] at hsub
      cases hsub
  | node ρ l x r =>
      by_cases hsingle : t.Single
      -- The root is the only node.
      · rw [BST.delete_single fuel hs hsingle] at hdel
        rw [← Except.ok.inj (Option.some.inj hdel)]
        rcases hsingle with ⟨ρ', x', h⟩
        rw [hroot, node.injEq] at h
        rw [h.2.1, h.2.2.2]
        refine iff_of_true trivial (keepsBalance_of_deep rfl ?_)
        intro _ ref' rv y hr
        cases hr
      · by_cases htop : (hasValue l value || hasValue r value) = true
        · rw [BST.delete_top hroot hvalid.sorted hs hone fuel htop] at hdel
          cases l with
          | null => cases hdel
          | node ρl ll lv lr =>
              have hu := Except.ok.inj (Option.some.inj hdel)
              by_cases hlv : lv = value
              -- The target is the left child of the root.
              · subst hlv
                have hl : node ρl ll lv lr = node ref a lv b :=
                  (search_subtree hvalid.sorted (hroot ▸ .left_child ..)).symm.trans hs
                rw [← hu]
                simp only [if_true]
                exact delete_left_balanced_iff hvalid hbal hroot hl hone
              -- It is the right one.
              · rw [hasValue, beq_false_of_ne hlv, Bool.false_or] at htop
                rcases hasValue_eq_true htop with ⟨ρr, ra, rb, rfl⟩
                have hr : node ρr ra value rb = node ref a value b :=
                  (search_subtree hvalid.sorted (hroot ▸ .right_child ..)).symm.trans hs
                rw [← hu]
                simp only [if_neg hlv]
                exact delete_right_balanced_iff hvalid hbal hroot hr hone
        -- No parent is found, so what is left is a subtree.
        · rw [Bool.not_eq_true] at htop
          rw [BST.delete_deep hroot hvalid.sorted hs hone fuel htop hsingle] at hdel
          by_cases hboth : a = null ∧ b = null
          · rw [if_pos hboth] at hdel
            cases hdel
          · rw [if_neg hboth] at hdel
            rw [← Except.ok.inj (Option.some.inj hdel)]
            refine iff_of_true (balanced_onlyChild (balanced_subtree hbal hsub))
              (keepsBalance_of_deep htop ?_)
            intro hx ref' rv y hr
            -- The target is the root, which has at most one child.
            subst hx
            have htarget : node ρ l x r = node ref a x b :=
              (search_subtree hvalid.sorted (hroot ▸ .refl)).symm.trans hs
            rw [node.injEq] at htarget
            rcases hone with ha | hb
            · exact htarget.2.1.trans ha
            · exact absurd ((hb.symm.trans htarget.2.2.2.symm).trans hr) (by simp)

/-- Whether the root may go is the same question for its successor. -/
theorem keepsBalance_successor_root {ρ : Nat} {l : Node} {x : Int} {r : Node}
    (hn : Sorted (node ρ l x r)) (hb : r ≠ null) {ref' : Nat} {m : Int} {y : Node}
    (hm : r.leftmost = node ref' null m y) (hmem : m ∈ r.values) :
    KeepsBalance (node ρ l x r) m ↔ KeepsBalance (node ρ l x r) x := by
  have hn' := (sorted_node ..).mp hn
  -- The successor is in the right subtree only.
  have hxm : x ≠ m := Int.ne_of_lt (hn'.2.2.2 m hmem)
  have hlm : hasValue l m = false := hasValue_false (fun hl => by
    have h₁ := hn'.2.2.1 m hl
    have h₂ := hn'.2.2.2 m hmem
    omega)
  have hlx : hasValue l x = false :=
    hasValue_false (fun hl => absurd (hn'.2.2.1 x hl) (Int.lt_irrefl x))
  have hrx : hasValue r x = false :=
    hasValue_false (fun hr => absurd (hn'.2.2.2 x hr) (Int.lt_irrefl x))
  cases r with
  | null => exact absurd rfl hb
  | node ρr c rv d =>
      rcases leftmost_spec ρr c rv d with ⟨ref₁, m₁, r₁, hm₁, hcase⟩
      rw [hm, node.injEq] at hm₁
      have hmm : m = m₁ := hm₁.2.2.1
      subst hmm
      rcases hcase with ⟨rfl, -, rfl, -⟩ | hsub
      -- The right child is the successor.
      · rw [KeepsBalance, KeepsBalance, hlm, hlx, hrx]
        constructor
        · intro h
          refine ⟨fun h' => absurd h'.1 Bool.false_ne_true,
            fun h' => absurd h'.1 Bool.false_ne_true, fun _ => ?_⟩
          exact h.2.1 ⟨beq_self_eq_true m, Or.inl rfl⟩
        · intro h
          refine ⟨fun h' => absurd h'.1 Bool.false_ne_true, fun _ => ?_,
            fun h' => absurd h'.1 hxm⟩
          exact h.2.2 ⟨rfl, ρr, m, d, rfl⟩
      -- The successor lies deeper.
      · have hlt := ((sorted_node ..).mp hn'.2.1).2.2.1 m
          (hsub.values_sublist.subset (List.mem_append_right _ List.mem_cons_self))
        have hrm : hasValue (node ρr c rv d) m = false := beq_false_of_ne (Int.ne_of_gt hlt)
        refine iff_of_true (keepsBalance_of_deep ?_ (fun h => absurd h hxm))
          (keepsBalance_of_deep ?_ ?_)
        · rw [hlm, hrm]
          rfl
        · rw [hlx, hrx]
          rfl
        -- The left child of the right child is not null, since the successor is in it.
        · intro _ ref₂ rv₂ y₂ hr
          rw [node.injEq] at hr
          rw [hr.2.1] at hsub
          cases hsub

/-- Whether a node with two children may go is the same question for its
    successor. -/
theorem keepsBalance_successor {ρ : Nat} {l : Node} {x : Int} {r : Node}
    (hn : Sorted (node ρ l x r)) {value : Int} {ref : Nat} {a b : Node}
    (hsub : Subtree (node ref a value b) (node ρ l x r)) (ha : a ≠ null) (hb : b ≠ null)
    {ref' : Nat} {m : Int} {y : Node} (hm : b.leftmost = node ref' null m y)
    (hmem : m ∈ b.values) :
    KeepsBalance (node ρ l x r) m ↔ KeepsBalance (node ρ l x r) value := by
  have hn' := (sorted_node ..).mp hn
  have hin : m ∈ (node ref a value b).values :=
    List.mem_append_right _ (List.mem_cons_of_mem _ hmem)
  have hvalue : value ∈ (node ref a value b).values :=
    List.mem_append_right _ List.mem_cons_self
  cases hsub with
  | refl => exact keepsBalance_successor_root hn hb hm hmem
  | left _ _ _ _ hsub =>
      -- The node is in the left subtree, and its successor with it.
      have hr : hasValue r m = false := hasValue_false (fun hr => by
        have h₁ := hn'.2.2.1 m (hsub.values_sublist.subset hin)
        have h₂ := hn'.2.2.2 m hr
        omega)
      have hxm : x ≠ m := Int.ne_of_gt (hn'.2.2.1 m (hsub.values_sublist.subset hin))
      have hxv : x ≠ value := Int.ne_of_gt (hn'.2.2.1 value (hsub.values_sublist.subset hvalue))
      refine iff_of_true (keepsBalance_of_deep ?_ (fun h => absurd h hxm))
        (keepsBalance_of_two hn (.left _ _ _ _ hsub) ha hb hxv)
      rw [hasValue_of_right hn'.1 hsub hmem, hr]
      rfl
  | right _ _ _ _ hsub =>
      -- The node is in the right subtree, and its successor with it.
      have hl : hasValue l m = false := hasValue_false (fun hl => by
        have h₁ := hn'.2.2.1 m hl
        have h₂ := hn'.2.2.2 m (hsub.values_sublist.subset hin)
        omega)
      have hxm : x ≠ m := Int.ne_of_lt (hn'.2.2.2 m (hsub.values_sublist.subset hin))
      have hxv : x ≠ value := Int.ne_of_lt (hn'.2.2.2 value (hsub.values_sublist.subset hvalue))
      refine iff_of_true (keepsBalance_of_deep ?_ (fun h => absurd h hxm))
        (keepsBalance_of_two hn (.right _ _ _ _ hsub) ha hb hxv)
      rw [hasValue_of_right hn'.2.1 hsub hmem, hl]
      rfl

/-- A deletion of a node with two children that returned has deleted its
    successor, and then written over the target's value. -/
theorem delete_two_inv {t u : BST} {value : Int} {ref : Nat} {a b : Node}
    (hs : t.search value = node ref a value b) (ha : a ≠ null) (hmore : ¬ t.Single) {ρ : Nat}
    {m : Int} {y : Node} (hm : b.leftmost = node ρ null m y) {fuel : Nat}
    (hdel : t.delete fuel value = some (.ok u)) :
    ∃ fuel' u', t.delete (fuel' + 1) m = some (.ok u') ∧ u = u'.write ref (setValue m) := by
  have hb : b ≠ null := by
    intro hb
    rw [hb] at hm
    cases hm
  -- `Delete` calls `DeleteRightMinNode`, and that calls `Delete`.
  cases fuel with
  | zero => cases hdel
  | succ fuel =>
      rw [BST.delete_two fuel hs ha hb hmore, BST.bind_eq_some] at hdel
      rcases hdel with ⟨e, -, h⟩ | ⟨p, hp, hu⟩
      · cases h
      · cases fuel with
        | zero => cases hp
        | succ fuel =>
            simp only [BST.deleteRightMinNode, hm, BST.bind_eq_some] at hp
            rcases hp with ⟨e, -, h⟩ | ⟨u', hu', h⟩
            · cases h
            · cases fuel with
              | zero => cases hu'
              | succ fuel =>
                  have hpair := Except.ok.inj (Option.some.inj h)
                  rw [← hpair] at hu
                  exact ⟨fuel, u', hu', (Except.ok.inj (Option.some.inj hu)).symm⟩

/-- A node with two children takes the value of its successor, which goes. -/
theorem delete_two_balanced_iff {t u : BST} (hvalid : t.Valid) (hbal : Balanced t.root)
    {value : Int} {ref : Nat} {a b : Node} (hsub : Subtree (node ref a value b) t.root)
    (ha : a ≠ null) (hb : b ≠ null) {fuel : Nat} (hdel : t.delete fuel value = some (.ok u)) :
    Balanced u.root ↔ KeepsBalance t.root value := by
  have hs : t.search value = node ref a value b := search_subtree hvalid.sorted hsub
  cases b with
  | null => exact absurd rfl hb
  | node ρb bl bv br =>
      rcases leftmost_spec ρb bl bv br with ⟨ref', m, y, hm, hcase⟩
      -- The successor is a node of the tree with at most one child.
      have hmsub : Subtree (node ref' null m y) (node ρb bl bv br) := by
        rcases hcase with ⟨rfl, rfl, rfl, rfl⟩ | hcase
        · exact .refl
        · exact .left ρb bl bv br hcase
      have hmroot : Subtree (node ref' null m y) t.root :=
        (hmsub.trans (.right_child ref a value _)).trans hsub
      have hmem : m ∈ (node ρb bl bv br).values :=
        hmsub.values_sublist.subset (List.mem_append_right _ List.mem_cons_self)
      have hmore : ¬ t.Single := BST.not_single hsub ha
      -- The tree is that of the inner call, with another value in one node.
      rcases delete_two_inv hs ha hmore hm hdel with ⟨fuel', u', hdel', rfl⟩
      have hone := delete_one_balanced_iff hvalid hbal hmroot (Or.inl rfl) hdel'
      rw [BST.write, balanced_update_setValue, hone]
      cases hroot : t.root with
      | null =>
          rw [hroot] at hsub
          cases hsub
      | node ρ l x r =>
          exact keepsBalance_successor (hroot ▸ hvalid.sorted) (hroot ▸ hsub) ha hb hm hmem

/-- A deletion that returns leaves a balanced tree exactly if it takes no
    node from the lower side of the root. -/
theorem delete_balanced_iff {t u : BST} (hvalid : t.Valid) (hbal : Balanced t.root)
    {value : Int} {fuel : Nat} (hdel : t.delete fuel value = some (.ok u)) :
    Balanced u.root ↔ KeepsBalance t.root value := by
  cases fuel with
  | zero => cases hdel
  | succ fuel =>
      by_cases hmem : value ∈ t.root.values
      · rcases exists_subtree hmem with ⟨ref, a, b, hsub⟩
        -- One child at most, or two.
        by_cases ha : a = null
        · exact delete_one_balanced_iff hvalid hbal hsub (Or.inl ha) hdel
        · by_cases hb : b = null
          · exact delete_one_balanced_iff hvalid hbal hsub (Or.inr hb) hdel
          · exact delete_two_balanced_iff hvalid hbal hsub ha hb hdel
      -- The value is not there, and nothing changes.
      · have hs : t.search value = null :=
          (search_eq_null_iff hvalid.sorted.ordered value).mpr hmem
        rw [BST.delete_absent fuel hs] at hdel
        rw [← Except.ok.inj (Option.some.inj hdel)]
        refine iff_of_true hbal ?_
        cases hroot : t.root with
        | null => exact trivial
        | node ρ l x r =>
            rw [hroot, values_node, List.mem_append, List.mem_cons, not_or, not_or] at hmem
            refine keepsBalance_of_deep ?_ (fun h => absurd h.symm hmem.2.1)
            rw [hasValue_false hmem.1, hasValue_false hmem.2.2]
            rfl

/-! ### Runs -/

/-- Every run whose deletions take no node from the lower side of the root
    keeps the tree balanced, and in such a run a deletion that does take one
    leaves a tree out of balance. -/
theorem avl_balanced (t : BST) (h : (avl.restrict Keeps).Reachable t) :
    Balanced t.root ∧ ∀ value fuel u, t.delete fuel value = some (.ok u) →
      (Balanced u.root ↔ KeepsBalance t.root value) := by
  have hinv : t.Valid ∧ Balanced t.root := by
    refine h.invariant (fun t => t.Valid ∧ Balanced t.root) ?_ ?_
    · intro t ht
      rw [show t = BST.new from ht]
      exact ⟨⟨List.Pairwise.nil, List.Pairwise.nil,
        fun ref hr => absurd hr List.not_mem_nil⟩, trivial⟩
    · intro t op u ht hstep
      rcases hstep with ⟨hkeeps, hstep⟩
      cases op with
      | addNode value =>
          rcases hstep with ⟨hv, hadd⟩
          exact addNode_valid ht.1 ht.2 hv hadd
      | delete value =>
          rcases hstep with ⟨fuel, hdel⟩
          exact ⟨ht.1.delete hdel, (delete_balanced_iff ht.1 ht.2 hdel).mpr hkeeps⟩
  exact ⟨hinv.2, fun value fuel u hdel => delete_balanced_iff hinv.1 hinv.2 hdel⟩

/-- A run of insertions, when it does not throw. -/
theorem reachable_addNodes (vs : List Int) : ∀ t u : BST, (avl.restrict Keeps).Reachable t →
    vs.Nodup → (∀ v ∈ vs, v ∉ t.root.values) → Balanced t.root → addNodes t vs = .ok u →
    (avl.restrict Keeps).Reachable u := by
  induction vs with
  | nil =>
      intro t u ht _ _ _ h
      rw [← Except.ok.inj h]
      exact ht
  | cons v vs ih =>
      intro t u ht hnd hout hbal h
      rw [addNodes, List.foldlM_cons] at h
      rcases bind_eq_ok h with ⟨t₁, hadd, hrest⟩
      rcases addNode_spec hbal v with ⟨t₂, hadd', hins⟩
      rcases Except.ok.inj (hadd.symm.trans hadd')
      rw [List.nodup_cons] at hnd
      have hstep : (avl.restrict Keeps).step t (.addNode v) t₁ :=
        ⟨trivial, hout v List.mem_cons_self, hadd⟩
      refine ih t₁ u (.step t _ t₁ ht hstep) hnd.2 ?_ hins.balanced hrest
      intro w hw hmem
      rcases List.mem_cons.mp (hins.perm.subset hmem) with hwv | hmem
      · exact hnd.1 (hwv ▸ hw)
      · exact hout w (List.mem_cons_of_mem v hw) hmem

/-- A leaf of a tree of three values goes. -/
theorem avl_balanced_leaf :
    Balanced (node 0 (node 1 null 1 null) 2 null) ∧
      ∀ value fuel u, BST.delete fuel ⟨node 0 (node 1 null 1 null) 2 null, 3⟩ value = some (.ok u) →
        (Balanced u.root ↔ KeepsBalance (node 0 (node 1 null 1 null) 2 null) value) := by
  refine avl_balanced ⟨node 0 (node 1 null 1 null) 2 null, 3⟩ ?_
  have hadd : (avl.restrict Keeps).Reachable
      ⟨node 0 (node 1 null 1 null) 2 (node 2 null 3 null), 3⟩ :=
    reachable_addNodes [2, 1, 3] BST.new _ (.init _ rfl) (by decide) (by decide) trivial rfl
  have hkeeps : KeepsBalance (node 0 (node 1 null 1 null) 2 (node 2 null 3 null)) 3 :=
    ⟨fun h => absurd h.1 (by decide), fun _ => by decide, fun h => absurd h.1 (by decide)⟩
  have hstep : (avl.restrict Keeps).step ⟨node 0 (node 1 null 1 null) 2 (node 2 null 3 null), 3⟩
      (.delete 3) ⟨node 0 (node 1 null 1 null) 2 null, 3⟩ := ⟨hkeeps, 1, rfl⟩
  exact .step _ _ _ hadd hstep

/-- Values 2, 1, 3 and 4 go in, and 1 comes out: the root is left with two
    levels on its right and none on its left. -/
theorem delete_unbalances : ¬ ∀ t, avl.Reachable t → Balanced t.root := by
  intro h
  have hadd : (avl.restrict Keeps).Reachable ⟨node 0 (node 1 null 1 null) 2
      (node 2 null 3 (node 3 null 4 null)), 4⟩ :=
    reachable_addNodes [2, 1, 3, 4] BST.new _ (.init _ rfl) (by decide) (by decide) trivial rfl
  have hstep : avl.step ⟨node 0 (node 1 null 1 null) 2 (node 2 null 3 (node 3 null 4 null)), 4⟩
      (.delete 1) ⟨node 0 null 2 (node 2 null 3 (node 3 null 4 null)), 4⟩ := ⟨1, rfl⟩
  have hbal := (h _ (.step _ _ _ hadd.of_restrict hstep)).2.2.2
  exact absurd hbal (by decide)

end AvlTree

end BlogSample
