import BlogSample.Int32
import BlogSample.Theory.Chain

/-!
# The Forest of Parents

`FindRoot` and `UnionVertices` on their two arrays. A vertex is an index, and
the parent of a root is `-1`. All three branches of a union hang the root of
`y` below the root of `x`; the ranks only decide whether a rank is increased.

A vertex leads along its parents to its root, so the arrays are a forest as
long as every vertex has such a chain. A walk that has visited more vertices
than there are is in a circle and never ends, so the length of the array is
fuel enough for the loop of `FindRoot`.

## Main definitions

* `Arrays`: `parent` and `rank`.
* `findRoot`, `unionVertices`: The methods.
* `Forest`: Every vertex has a chain of parents.
* `RootOf`: The root of a vertex.

## Theorems

* `Forest.findRoot_eq`: `FindRoot` finds the root.
* `unionVertices_same`, `unionVertices_link`: What a union does.
* `Forest.link`: A root is hung below another one.
* `rootOf_link`: The roots after that.
-/

namespace BlogSample

namespace DisjointSets

open DotNet

/-- The two arrays. -/
structure Arrays where
  parent : List Int
  rank : List Int
  deriving DecidableEq

/-- `a[i]`. -/
def item (a : List Int) (i : Int) : Except Exn Int :=
  if i < 0 then throw .indexOutOfRange
  else
    match a[i.toNat]? with
    | none => throw .indexOutOfRange
    | some x => pure x

/-- `Array.Fill` of both arrays. -/
def Arrays.fill (n : Nat) : Arrays where
  parent := List.replicate n (-1)
  rank := List.replicate n 0

/-- The loop of `FindRoot`. -/
def rootLoop (parent : List Int) : Nat → Int → Option (Except Exn Int)
  | 0, _ => none
  | fuel + 1, x_root =>
      match item parent x_root with
      | .error e => some (throw e)
      | .ok p => if p = -1 then some (pure x_root) else rootLoop parent fuel p

/-- `FindRoot(x, parent)`. -/
def findRoot (x : Int) (parent : List Int) : Option (Except Exn Int) :=
  rootLoop parent (parent.length + 1) x

/-- `UnionVertices(x, y, parent, rank)` after the two roots have been found. The
    second comparison is the first one again. -/
def unite (x_Root y_Root : Int) (s : Arrays) : Except Exn (Int × Arrays) :=
  if x_Root = y_Root then pure (0, s)
  else do
    let x_Rank ← item s.rank x_Root
    let y_Rank ← item s.rank y_Root
    if x_Rank > y_Rank then
      pure (1, { s with parent := s.parent.set y_Root.toNat x_Root })
    -- Never the case.
    else if x_Rank > y_Rank then
      pure (1, { s with parent := s.parent.set y_Root.toNat x_Root })
    else
      pure (1,
        { parent := s.parent.set y_Root.toNat x_Root
          rank := s.rank.set x_Root.toNat (wrap (x_Rank + 1)) })

/-- `UnionVertices(x, y, parent, rank)`. -/
def unionVertices (x y : Int) (s : Arrays) : Option (Except Exn (Int × Arrays)) :=
  match findRoot x s.parent with
  | none => none
  | some (.error e) => some (throw e)
  | some (.ok x_Root) =>
      match findRoot y s.parent with
      | none => none
      | some (.error e) => some (throw e)
      | some (.ok y_Root) => some (unite x_Root y_Root s)

/-- The parent of a vertex that is not a root. -/
def next (parent : List Int) (v : Nat) : Option Nat :=
  match parent[v]? with
  | none => none
  | some p => if p = -1 then none else some p.toNat

/-- Every parent is a vertex, and every vertex has a chain of parents. -/
structure Forest (n : Nat) (parent : List Int) : Prop where
  length : parent.length = n
  vertex (p : Int) : p ∈ parent → p = -1 ∨ 0 ≤ p ∧ p < n
  chain (v : Nat) : v < n → ∃ l, Chain (next parent) (some v) l

/-- The chain of a vertex ends with `r`. -/
def RootOf (parent : List Int) (v r : Nat) : Prop :=
  ∃ l, Chain (next parent) (some v) (l ++ [r])

section

variable {n : Nat} {parent : List Int} {v r x y : Nat}

/-- The entry of a vertex is its parent, or `-1`. -/
theorem Forest.item_eq (h : Forest n parent) (hv : v < n) :
    ∃ p, item parent v = .ok p ∧ parent[v]? = some p ∧ (p = -1 ∨ 0 ≤ p ∧ p < n) := by
  have hlt : v < parent.length := h.length ▸ hv
  refine ⟨parent[v], ?_, List.getElem?_eq_getElem hlt, h.vertex _ (List.getElem_mem hlt)⟩
  unfold item
  rw [if_neg (by omega), Int.toNat_natCast, List.getElem?_eq_getElem hlt]
  rfl

/-- A parent is a vertex. -/
theorem Forest.next_lt (h : Forest n parent) {u : Nat} (hu : next parent v = some u) : u < n := by
  unfold next at hu
  split at hu
  · cases hu
  · next p hp =>
      split at hu
      · cases hu
      · next hroot =>
          have hrange := (h.vertex p (List.mem_of_getElem? hp)).resolve_left hroot
          cases hu
          omega

/-- The chain of a vertex consists of vertices. -/
theorem Forest.chain_lt (h : Forest n parent) {l : List Nat} :
    ∀ {v : Nat}, v < n → Chain (next parent) (some v) l → ∀ u ∈ l, u < n := by
  induction l with
  | nil => exact fun _ _ _ hu => absurd hu List.not_mem_nil
  | cons a l ih =>
      intro v hv hchain u hu
      have hva : v = a := Option.some.inj hchain.1
      subst hva
      rcases List.mem_cons.mp hu with rfl | hu
      · exact hv
      · cases hnext : next parent v with
        | none =>
            cases l with
            | nil => cases hu
            | cons b l => cases hnext.symm.trans hchain.2.1
        | some w => exact ih (h.next_lt hnext) (hnext ▸ hchain.2) u hu

/-- The loop goes along the chain. -/
theorem Forest.rootLoop_eq (h : Forest n parent) (l : List Nat) :
    ∀ {fuel v : Nat}, v < n → l.length < fuel → Chain (next parent) (some v) (l ++ [r]) →
      rootLoop parent fuel v = some (.ok r) := by
  induction l with
  | nil =>
      intro fuel v hv hfuel hchain
      rcases fuel with _ | fuel
      · cases hfuel
      · have hvr : v = r := Option.some.inj hchain.1
        subst hvr
        have hroot : next parent v = none := hchain.2
        rcases h.item_eq hv with ⟨p, hitem, hp, hrange⟩
        unfold next at hroot
        rw [hp] at hroot
        -- The chain ends here, so the parent is -1.
        by_cases hp1 : p = -1
        · simp only [rootLoop, hitem]
          rw [if_pos hp1]
          rfl
        · simp only [if_neg hp1] at hroot
          cases hroot
  | cons a l ih =>
      intro fuel v hv hfuel hchain
      rcases fuel with _ | fuel
      · cases hfuel
      · have hva : v = a := Option.some.inj hchain.1
        subst hva
        rcases h.item_eq hv with ⟨p, hitem, hp, hrange⟩
        -- The chain goes on, so there is a parent, which is an index.
        have hnext : next parent v = some p.toNat ∧ p ≠ -1 := by
          have hsome : next parent v ≠ none := by
            intro hnone
            have hrest := hchain.2
            rw [hnone] at hrest
            cases l with
            | nil => cases hrest.1
            | cons b l => cases hrest.1
          unfold next at hsome ⊢
          rw [hp] at hsome ⊢
          by_cases hp1 : p = -1
          · exact absurd (if_pos hp1) hsome
          · exact ⟨if_neg hp1, hp1⟩
        have hpos := hrange.resolve_left hnext.2
        simp only [rootLoop, hitem]
        rw [if_neg hnext.2, ← Int.toNat_of_nonneg hpos.1]
        exact ih (h.next_lt hnext.1) (Nat.lt_of_succ_lt_succ hfuel) (hnext.1 ▸ hchain.2)

/-- Every vertex has a root. -/
theorem Forest.exists_root (h : Forest n parent) (hv : v < n) : ∃ r, RootOf parent v r := by
  rcases h.chain v hv with ⟨l, hchain⟩
  rcases List.eq_nil_or_concat l with rfl | ⟨l, r, rfl⟩
  · cases hchain
  · exact ⟨r, l, by rwa [List.concat_eq_append] at hchain⟩

/-- It has one root only. -/
theorem RootOf.unique {r' : Nat} (h : RootOf parent v r) (h' : RootOf parent v r') : r = r' := by
  rcases h with ⟨l, hchain⟩
  rcases h' with ⟨l', hchain'⟩
  exact List.singleton_inj.mp (List.append_inj_right' (hchain.unique hchain') rfl)

/-- The root of a vertex is a vertex without a parent. -/
theorem Forest.root_lt (h : Forest n parent) (hv : v < n) (hroot : RootOf parent v r) :
    r < n ∧ next parent r = none := by
  rcases hroot with ⟨l, hchain⟩
  exact ⟨h.chain_lt hv hchain r (List.mem_append_right l List.mem_cons_self), hchain.last⟩

/-- A vertex without a parent is its own root. -/
theorem rootOf_self (hroot : next parent r = none) : RootOf parent r r :=
  ⟨[], rfl, hroot⟩

/-- `FindRoot` finds the root of a vertex. -/
theorem Forest.findRoot_eq (h : Forest n parent) (hv : v < n) (hroot : RootOf parent v r) :
    findRoot v parent = some (.ok r) := by
  rcases hroot with ⟨l, hchain⟩
  -- A chain visits no vertex twice, so it is no longer than the array.
  have hsub : l ++ [r] ⊆ List.range n :=
    fun u hu => List.mem_range.mpr (h.chain_lt hv hchain u hu)
  have hle := (List.subperm_of_subset hchain.nodup hsub).length_le
  rw [List.length_append, List.length_range, List.length_singleton] at hle
  refine h.rootLoop_eq l hv ?_ hchain
  rw [h.length]
  omega

/-- Roots that are the same are left alone. -/
theorem unite_same (x : Int) (s : Arrays) : unite x x s = .ok (0, s) :=
  if_pos rfl

theorem item_eq {a : List Int} {i : Nat} {k : Int} (hi : a[i]? = some k) : item a i = .ok k := by
  unfold item
  rw [if_neg (by omega), Int.toNat_natCast, hi]
  rfl

/-- Of two roots, the second one gets the first one as its parent. -/
theorem unite_link {s : Arrays} (hx : x < s.rank.length) (hy : y < s.rank.length) (hxy : x ≠ y) :
    ∃ rank, unite x y s = .ok (1, { parent := s.parent.set y x, rank := rank }) ∧
      rank.length = s.rank.length := by
  unfold unite
  rw [if_neg (by omega), item_eq (List.getElem?_eq_getElem hx),
    item_eq (List.getElem?_eq_getElem hy)]
  by_cases hrank : s.rank[x] > s.rank[y]
  · exact ⟨s.rank, if_pos hrank, rfl⟩
  · refine ⟨_, (if_neg hrank).trans (if_neg hrank), ?_⟩
    exact List.length_set

/-- The chains after a root has been hung below another vertex. -/
theorem next_set (hy : y < parent.length) :
    next (parent.set y x) = Function.update (next parent) y (some x) := by
  ext v : 1
  unfold next
  by_cases hv : v = y
  · rw [hv, Function.update_self, List.getElem?_set_self hy]
    simp only [if_neg (show ¬ (x : Int) = -1 by omega), Int.toNat_natCast]
  · rw [Function.update_of_ne hv, List.getElem?_set_ne (Ne.symm hv)]

/-- The roots after that. -/
theorem rootOf_link (hy : y < parent.length) (hroot : RootOf parent v r)
    (hxroot : next parent x = none) (hyroot : next parent y = none) (hxy : x ≠ y) :
    RootOf (parent.set y x) v (if r = y then x else r) := by
  rcases hroot with ⟨l, hchain⟩
  unfold RootOf
  rw [next_set hy]
  by_cases hr : r = y
  · rw [if_pos hr]
    rw [hr] at hchain
    exact ⟨l ++ [y], hchain.link_last hxroot hxy⟩
  · rw [if_neg hr]
    exact ⟨l, hchain.link_other hyroot hr⟩

/-- A root is hung below another one. -/
theorem Forest.link (h : Forest n parent) (hx : x < n) (hy : y < n)
    (hxroot : next parent x = none) (hyroot : next parent y = none) (hxy : x ≠ y) :
    Forest n (parent.set y x) := by
  refine ⟨List.length_set.trans h.length, fun p hp => ?_, fun v hv => ?_⟩
  · rcases List.mem_or_eq_of_mem_set hp with hp | rfl
    · exact h.vertex p hp
    · omega
  · rcases h.exists_root hv with ⟨r, hroot⟩
    rcases rootOf_link (h.length ▸ hy) hroot hxroot hyroot hxy with ⟨l, hchain⟩
    exact ⟨_, hchain⟩

/-- Filled arrays are a forest of roots. -/
theorem forest_fill (n : Nat) : Forest n (Arrays.fill n).parent ∧
    ∀ v < n, next (Arrays.fill n).parent v = none := by
  have hroot (v : Nat) (hv : v < n) : next (Arrays.fill n).parent v = none := by
    unfold next Arrays.fill
    rw [List.getElem?_replicate_of_lt hv]
    rfl
  refine ⟨⟨List.length_replicate, fun p hp => Or.inl (List.eq_of_mem_replicate hp),
    fun v hv => ⟨[v], rfl, hroot v hv⟩⟩, hroot⟩

end

end DisjointSets

end BlogSample
