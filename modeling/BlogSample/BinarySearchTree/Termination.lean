import BlogSample.BinarySearchTree.SetDeletion

/-!
# Deletion and Equal Values

Which deletions come to an end in a tree that insertions have built, equal
values included.

Insertion puts a value that is there already to the right of the first node that
holds it. `DeleteRightMinNode` remembers only the value of the leftmost node on
the right and deletes by value, and the search from the root then finds the
first node with that value. If this is the leftmost node itself, it has no left
child and its deletion calls nothing. If the value is the target's own, the
search finds the target once more, and the same two calls follow for ever.

## Main definitions

* `Grown`: Smaller values lie to the left of a node, and all others to the right.
* `build`: The tree of a sequence of insertions.

## Theorems

* `grown_build`: Insertions keep equal values to the right.
* `search_leftmost_right`: The search finds the leftmost node on the right.
* `delete_three`: A deletion that does not find its target again.
* `delete_never`: One that does.
* `delete_terminates_iff`: When a deletion comes to an end.
-/

namespace BlogSample

namespace BinarySearchTree

open DotNet BlogSample.BinaryTree

namespace Node

/-- Smaller values lie to the left of a node, and all others to the right. -/
def Grown : Node → Prop
  | null => True
  | node _ l v r => Grown l ∧ Grown r ∧ (∀ a ∈ l.values, a < v) ∧ ∀ b ∈ r.values, v ≤ b

theorem grown_add {n : Node} (hn : Grown n) (ref : Nat) (value : Int) :
    Grown (add n ref value) := by
  induction n with
  | null => exact ⟨trivial, trivial, fun _ h => absurd h List.not_mem_nil,
      fun _ h => absurd h List.not_mem_nil⟩
  | node ρ l v r ihl ihr =>
      rcases hn with ⟨hl, hr, hlv, hvr⟩
      rw [add]
      by_cases hlt : value < v
      · rw [if_pos hlt]
        refine ⟨ihl hl, hr, fun a ha => ?_, hvr⟩
        rcases (mem_values_add l ref value a).mp ha with rfl | ha
        · exact hlt
        · exact hlv a ha
      -- An equal value goes to the right as well.
      · rw [if_neg hlt]
        refine ⟨hl, ihr hr, hlv, fun b hb => ?_⟩
        rcases (mem_values_add r ref value b).mp hb with rfl | hb
        · exact Int.not_lt.mp hlt
        · exact hvr b hb

theorem Grown.subtree {s n : Node} (hn : Grown n) (hs : Subtree s n) : Grown s := by
  induction hs with
  | refl => exact hn
  | left _ _ _ _ _ ih => exact ih hn.1
  | right _ _ _ _ _ ih => exact ih hn.2.1

/-- A tree has a leftmost node. -/
theorem exists_leftmost {n : Node} (hn : n ≠ null) : ∃ ρ m y, n.leftmost = node ρ null m y := by
  cases n with
  | null => exact absurd rfl hn
  | node ref l v r =>
      rcases leftmost_spec ref l v r with ⟨ρ, m, y, hm, -⟩
      exact ⟨ρ, m, y, hm⟩

/-- The leftmost node has the least value, and the search finds it. -/
theorem search_leftmost {n : Node} (hn : Grown n) {ref : Nat} {m : Int} {y : Node}
    (hm : n.leftmost = node ref null m y) :
    search n m = node ref null m y ∧ m ∈ n.values ∧ ∀ b ∈ n.values, m ≤ b := by
  induction n with
  | null => cases hm
  | node ρ l v r ihl _ =>
      rcases hn with ⟨hl, -, hlv, hvr⟩
      cases l with
      | null =>
          -- The node is the leftmost one itself.
          rw [leftmost, node.injEq] at hm
          rcases hm with ⟨rfl, -, rfl, rfl⟩
          refine ⟨by rw [search, if_pos rfl], List.mem_cons_self, fun b hb => ?_⟩
          rcases List.mem_cons.mp hb with rfl | hb
          · exact Int.le_refl b
          · exact hvr b hb
      | node ρ' l' v' r' =>
          rcases ihl hl hm with ⟨hfound, hmem, hle⟩
          have hlt := hlv m hmem
          refine ⟨?_, List.mem_append_left _ hmem, fun b hb => ?_⟩
          · rw [search, if_neg (by omega), if_pos (by omega)]
            exact hfound
          · rcases List.mem_append.mp hb with hb | hb
            · exact hle b hb
            · rcases List.mem_cons.mp hb with rfl | hb
              · exact Int.le_of_lt hlt
              · have hge := hvr b hb
                omega

/-- The search for the least value on the right of a node goes through the node, and
    on to the leftmost node unless the value is the node's own. -/
theorem search_leftmost_right {n : Node} (hn : Grown n) {value : Int} {ref : Nat} {l r : Node}
    (hs : search n value = node ref l value r) {ρ : Nat} {m : Int} {y : Node}
    (hm : r.leftmost = node ρ null m y) (hne : m ≠ value) : search n m = node ρ null m y := by
  have hr : Grown r :=
    (hn.subtree (search_some hs).2).2.1
  -- The values on the right of a node are no smaller than its own.
  have hge : value ≤ m :=
    (hn.subtree (search_some hs).2).2.2.2 m (search_leftmost hr hm).2.1
  induction n with
  | null => cases hs
  | node ρ' a x b iha ihb =>
      rcases hn with ⟨ha, hb, hax, hxb⟩
      rw [search] at hs
      by_cases hx : x = value
      -- This is the node, and the least value on its right is larger than its own.
      · rw [if_pos hx, node.injEq] at hs
        rw [search, if_neg (by omega), if_neg (by omega), hs.2.2.2]
        exact (search_leftmost hr hm).1
      · rw [if_neg hx] at hs
        by_cases hgt : x > value
        -- The node and everything on its right are on the left of this one.
        · rw [if_pos hgt] at hs
          have hmem : m ∈ a.values := (search_some hs).2.values_sublist.subset
            (List.mem_append_right _ (List.mem_cons_of_mem _ (search_leftmost hr hm).2.1))
          have hlt := hax m hmem
          rw [search, if_neg (by omega), if_pos (by omega)]
          exact iha ha hs
        · rw [if_neg hgt] at hs
          rw [search, if_neg (by omega), if_neg (by omega)]
          exact ihb hb hs

end Node

namespace BST

open Node

/-- `AddNode(new Node(v))` for one value after the other. -/
def build (values : List Int) : BST :=
  values.foldl addNode new

theorem grown_build (values : List Int) : Grown (build values).root := by
  have hfold : ∀ t : BST, Grown t.root → Grown (values.foldl addNode t).root := by
    induction values with
    | nil => exact fun t ht => ht
    | cons v values ih => exact fun t ht => ih (t.addNode v) (grown_add ht t.next v)
  exact hfold new trivial

/-- The target has a left child, and its value is stored on its right again. -/
def FoundAgain (t : BST) (value : Int) : Prop :=
  ∃ ref l r, t.search value = node ref l value r ∧ l ≠ null ∧ value ∈ r.values

/-- The deletion of a node with at most one child calls nothing. -/
theorem delete_one {t : BST} {value : Int} {ref : Nat} {l r : Node}
    (hs : t.search value = node ref l value r) (hone : l = null ∨ r = null) (fuel : Nat) :
    ∃ res, t.delete (fuel + 1) value = some res := by
  by_cases hsingle : t.Single
  · exact ⟨_, delete_single fuel hs hsingle⟩
  · rcases hone with rfl | rfl
    · by_cases hr : r = null
      · rw [hr] at hs
        exact ⟨_, delete_leaf fuel hs hsingle⟩
      · exact ⟨_, delete_right fuel hs hr hsingle⟩
    · by_cases hl : l = null
      · rw [hl] at hs
        exact ⟨_, delete_leaf fuel hs hsingle⟩
      · exact ⟨_, delete_left fuel hs hl hsingle⟩

/-- A deletion that does not find its target again takes three calls at most. -/
theorem delete_three {t : BST} (ht : Grown t.root) {value : Int} (h : ¬ t.FoundAgain value) :
    ∃ res, t.delete 3 value = some res := by
  cases hs : t.search value with
  | null => exact ⟨_, delete_absent 2 hs⟩
  | node ref l v r =>
      obtain rfl : v = value := (search_some hs).1
      by_cases hl : l = null
      · exact delete_one hs (Or.inl hl) 2
      · by_cases hr : r = null
        · exact delete_one hs (Or.inr hr) 2
        · rcases exists_leftmost hr with ⟨ρ, m, y, hm⟩
          have hgrown := (ht.subtree (search_some hs).2).2.1
          -- The leftmost node is another one, so its own deletion is the last call.
          have hne : m ≠ v := by
            rintro rfl
            exact h ⟨ref, l, r, hs, hl, (search_leftmost hgrown hm).2.1⟩
          have hsm : t.search m = node ρ null m y := search_leftmost_right ht hs hm hne
          rcases delete_one hsm (Or.inl rfl) 0 with ⟨res, hres⟩
          exact ⟨_, delete_successor hs hl (not_single (search_some hs).2 hl) hm hres⟩

/-- A deletion that finds its target again makes the same two calls for ever. -/
theorem delete_never {t : BST} (ht : Grown t.root) {value : Int} (h : t.FoundAgain value)
    (fuel : Nat) : t.delete fuel value = none := by
  rcases h with ⟨ref, l, r, hs, hl, hmem⟩
  have hr : r ≠ null := by
    rintro rfl
    exact absurd hmem List.not_mem_nil
  rcases exists_leftmost hr with ⟨ρ, m, y, hm⟩
  rcases ht.subtree (search_some hs).2 with ⟨-, hgrown, -, hge⟩
  rcases search_leftmost hgrown hm with ⟨-, hmin, hle⟩
  -- The least value on the right is the target's own.
  obtain rfl : m = value := Int.le_antisymm (hle value hmem) (hge m hmin)
  have hmore := not_single (search_some hs).2 hl
  induction fuel using Nat.twoStepInduction with
  | zero => rfl
  | one =>
      rw [delete_two 0 hs hl hr hmore]
      rfl
  | more fuel ih _ =>
      rw [delete_two (fuel + 1) hs hl hr hmore, deleteRightMinNode]
      simp only [hm, ih]
      rfl

/-- In a tree built by insertions, a deletion makes finitely many calls if and only if
    the node that `Search` finds has no left child, or does not have its value again on
    its right. -/
theorem delete_terminates_iff (values : List Int) (value : Int) :
    (∃ fuel res, (build values).delete fuel value = some res) ↔
      ¬ (build values).FoundAgain value := by
  constructor
  · rintro ⟨fuel, res, hres⟩ h
    rw [delete_never (grown_build values) h fuel] at hres
    cases hres
  · intro h
    rcases delete_three (grown_build values) h with ⟨res, hres⟩
    exact ⟨3, res, hres⟩

/-- The root of `5`, `3` and another `5` cannot be deleted. -/
theorem delete_never_equal : ¬ ∃ fuel res, (build [5, 3, 5]).delete fuel 5 = some res := by
  rintro ⟨fuel, res, hres⟩
  have hagain : (build [5, 3, 5]).FoundAgain 5 :=
    ⟨0, node 1 null 3 null, node 2 null 5 null, rfl, nofun, List.mem_cons_self⟩
  rw [delete_never (grown_build [5, 3, 5]) hagain fuel] at hres
  cases hres

end BST

end BinarySearchTree

end BlogSample
