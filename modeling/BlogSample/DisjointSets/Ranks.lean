import BlogSample.DisjointSets.Connectivity
import Mathlib.Data.Nat.Log
import Mathlib.Data.Set.Card

/-!
# Ranks and Heights

What the ranks are for: the rank of a root is the height of its tree, and a tree
of rank `k` has at least `2 ^ k` vertices, so no walk to a root is longer than
the logarithm of the size of the tree.

A union keeps that as long as the second root does not have the larger rank. The
comparison that should catch this case is the first one again, so the larger tree
is hung below the smaller one, whose rank goes up by one only.

## Main definitions

* `Walk`: A vertex leads to another one along a number of parents.
* `tree`: The vertices of a root.
* `Shallow`: The ranks bound the heights, and the sizes bound the ranks.
* `Exact`: The ranks are the heights.
* `Ranked`: The second root does not have the larger rank.

## Theorems

* `walk_link`: The walks after a root has been hung below another one.
* `Exact.shallow`: Exact ranks keep the trees shallow.
* `Exact.unite_of_le`, `Exact.unite_of_lt`: What a union does to exact ranks.
* `unions_shallow_iff`: When ranks keep the trees shallow.
-/

namespace BlogSample

namespace DisjointSets

open DotNet

/-- The vertex leads to `r` along `k` parents. -/
def Walk (parent : List Int) (v r k : Nat) : Prop :=
  ∃ l, Chain (next parent) (some v) (l ++ [r]) ∧ l.length = k

/-- The vertices whose root is `r`. -/
def tree (n : Nat) (parent : List Int) (r : Nat) : Set Nat :=
  {v | v < n ∧ RootOf parent v r}

/-- The rank of a root is at least the height of its tree, and a tree has at least two to
    the rank of its root vertices. The loop of `FindRoot` follows at most as many links as
    the logarithm of that size, after which one more round sees the root. -/
structure Shallow (n : Nat) (s : Arrays) : Prop where
  rank (r : Nat) : r < n → next s.parent r = none → ∃ k : Nat, s.rank[r]? = some (k : Int) ∧
    (∀ v < n, ∀ j, Walk s.parent v r j → j ≤ k) ∧ 2 ^ k ≤ (tree n s.parent r).ncard
  findRoot (v r : Nat) : v < n → RootOf s.parent v r →
    rootLoop s.parent (Nat.log 2 (tree n s.parent r).ncard + 1) v = some (.ok r)

/-- The rank of a root is the height of its tree. -/
structure Exact (n : Nat) (s : Arrays) : Prop where
  forest : Forest n s.parent
  ranks : s.rank.length = n
  rank (r : Nat) : r < n → next s.parent r = none → ∃ k : Nat, s.rank[r]? = some (k : Int) ∧
    (∀ v < n, ∀ j, Walk s.parent v r j → j ≤ k) ∧ (∃ v < n, Walk s.parent v r k) ∧
    2 ^ k ≤ (tree n s.parent r).ncard

section

variable {n : Nat} {parent : List Int} {v r x y j k : Nat}

theorem Walk.rootOf (h : Walk parent v r k) : RootOf parent v r := by
  rcases h with ⟨l, hchain, -⟩
  exact ⟨l, hchain⟩

theorem exists_walk (h : RootOf parent v r) : ∃ k, Walk parent v r k := by
  rcases h with ⟨l, hchain⟩
  exact ⟨l.length, l, hchain, rfl⟩

/-- A vertex has one walk to a root. -/
theorem Walk.unique {r' k' : Nat} (h : Walk parent v r k) (h' : Walk parent v r' k') :
    r = r' ∧ k = k' := by
  rcases h with ⟨l, hchain, rfl⟩
  rcases h' with ⟨l', hchain', rfl⟩
  have heq := hchain.unique hchain'
  have hlen := congrArg List.length heq
  simp only [List.length_append, List.length_singleton] at hlen
  exact ⟨List.singleton_inj.mp (List.append_inj_right' heq rfl), by omega⟩

/-- The walks after a root has been hung below another one. -/
theorem walk_link (hy : y < parent.length) (hxroot : next parent x = none)
    (hyroot : next parent y = none) (hxy : x ≠ y) (h : Walk parent v r k) :
    Walk (parent.set y x) v (if r = y then x else r) (if r = y then k + 1 else k) := by
  rcases h with ⟨l, hchain, rfl⟩
  unfold Walk
  rw [next_set hy]
  by_cases hr : r = y
  · rw [if_pos hr, if_pos hr]
    rw [hr] at hchain
    refine ⟨l ++ [y], hchain.link_last hxroot hxy, ?_⟩
    rw [List.length_append, List.length_singleton]
  · rw [if_neg hr, if_neg hr]
    exact ⟨l, hchain.link_other hyroot hr, rfl⟩

/-- Where a walk after that comes from. -/
theorem Forest.walk_of_link (h : Forest n parent) (hv : v < n) (hy : y < n)
    (hxroot : next parent x = none) (hyroot : next parent y = none) (hxy : x ≠ y)
    (hwalk : Walk (parent.set y x) v r k) :
    (r = x ∧ ∃ j, k = j + 1 ∧ Walk parent v y j) ∨ (r ≠ y ∧ Walk parent v r k) := by
  rcases h.exists_root hv with ⟨r', hroot⟩
  rcases exists_walk hroot with ⟨k', hwalk'⟩
  have hnew := walk_link (h.length ▸ hy) hxroot hyroot hxy hwalk'
  rcases hnew.unique hwalk with ⟨hr, hk⟩
  by_cases hry : r' = y
  · rw [if_pos hry] at hr hk
    exact Or.inl ⟨hr.symm, k', hk.symm, hry ▸ hwalk'⟩
  · rw [if_neg hry] at hr hk
    exact Or.inr ⟨hr ▸ hry, hr ▸ hk ▸ hwalk'⟩

theorem finite_tree (n : Nat) (parent : List Int) (r : Nat) : (tree n parent r).Finite :=
  (Set.finite_lt_nat n).subset (fun _ hv => hv.1)

/-- The roots after that. -/
theorem Forest.rootOf_link_iff (h : Forest n parent) (hv : v < n) (hy : y < n)
    (hxroot : next parent x = none) (hyroot : next parent y = none) (hxy : x ≠ y) (hr : r ≠ y) :
    RootOf (parent.set y x) v r ↔ RootOf parent v r ∨ r = x ∧ RootOf parent v y := by
  have hlt := h.length ▸ hy
  constructor
  · intro hroot
    rcases exists_walk hroot with ⟨k, hwalk⟩
    rcases h.walk_of_link hv hy hxroot hyroot hxy hwalk with ⟨hrx, j, -, hold⟩ | ⟨-, hold⟩
    · exact Or.inr ⟨hrx, hold.rootOf⟩
    · exact Or.inl hold.rootOf
  · rintro (hroot | ⟨rfl, hroot⟩)
    · have hnew := rootOf_link hlt hroot hxroot hyroot hxy
      rw [if_neg hr] at hnew
      exact hnew
    · have hnew := rootOf_link hlt hroot hxroot hyroot hxy
      rw [if_pos rfl] at hnew
      exact hnew

/-- The tree of the upper root gets the other one. -/
theorem Forest.tree_link (h : Forest n parent) (hy : y < n) (hxroot : next parent x = none)
    (hyroot : next parent y = none) (hxy : x ≠ y) :
    tree n (parent.set y x) x = tree n parent x ∪ tree n parent y := by
  ext v
  have hroots (hv : v < n) := h.rootOf_link_iff hv hy hxroot hyroot hxy hxy
  constructor
  · rintro ⟨hv, hroot⟩
    exact ((hroots hv).mp hroot).imp (fun hx => ⟨hv, hx⟩) (fun hy => ⟨hv, hy.2⟩)
  · rintro (⟨hv, hroot⟩ | ⟨hv, hroot⟩)
    · exact ⟨hv, (hroots hv).mpr (Or.inl hroot)⟩
    · exact ⟨hv, (hroots hv).mpr (Or.inr ⟨rfl, hroot⟩)⟩

/-- The other trees stay as they are. -/
theorem Forest.tree_link_other (h : Forest n parent) (hy : y < n) (hxroot : next parent x = none)
    (hyroot : next parent y = none) (hxy : x ≠ y) (hrx : r ≠ x) (hry : r ≠ y) :
    tree n (parent.set y x) r = tree n parent r := by
  ext v
  refine and_congr_right (fun hv => ?_)
  rw [h.rootOf_link_iff hv hy hxroot hyroot hxy hry, or_iff_left (fun hx => hrx hx.1)]

/-- Two trees have no vertex in common. -/
theorem ncard_tree_union (hxy : x ≠ y) :
    (tree n parent x ∪ tree n parent y).ncard = (tree n parent x).ncard + (tree n parent y).ncard :=
  Set.ncard_union_eq (Set.disjoint_left.mpr (fun _ hx hy => hxy (hx.2.unique hy.2)))
    (finite_tree n parent x) (finite_tree n parent y)

theorem ncard_tree_le (n : Nat) (parent : List Int) (r : Nat) : (tree n parent r).ncard ≤ n := by
  have hsub : tree n parent r ⊆ (Finset.range n : Set Nat) := fun v hv =>
    Finset.mem_coe.mpr (Finset.mem_range.mpr hv.1)
  have hle := Set.ncard_le_ncard hsub (Finset.finite_toSet _)
  rw [Set.ncard_coe_finset, Finset.card_range] at hle
  exact hle

end

/-- Exact ranks keep the trees shallow. -/
theorem Exact.shallow {n : Nat} {s : Arrays} (h : Exact n s) : Shallow n s := by
  refine ⟨fun r hr hroot => ?_, fun v r hv hroot => ?_⟩
  · rcases h.rank r hr hroot with ⟨k, hk, hle, -, hsize⟩
    exact ⟨k, hk, hle, hsize⟩
  · rcases h.forest.root_lt hv hroot with ⟨hr, hnone⟩
    rcases h.rank r hr hnone with ⟨k, -, hle, -, hsize⟩
    rcases hroot with ⟨l, hchain⟩
    refine h.forest.rootLoop_eq l hv (Nat.lt_succ_of_le ?_) hchain
    exact Nat.le_trans (hle v hv l.length ⟨l, hchain, rfl⟩) (Nat.le_log_of_pow_le (by decide) hsize)

section Union

variable {n : Nat} {s : Arrays} {x y kx ky : Nat}

/-- A union of two roots, by their ranks. -/
theorem unite_eq (hxy : x ≠ y) (hkx : s.rank[x]? = some (kx : Int))
    (hky : s.rank[y]? = some (ky : Int)) :
    unite x y s = .ok (1, { parent := s.parent.set y x
                            rank := if ky < kx then s.rank
                              else s.rank.set x (wrap ((kx : Int) + 1)) }) := by
  unfold unite
  rw [if_neg (by omega), item_eq hkx, item_eq hky]
  by_cases hlt : ky < kx
  · rw [if_pos hlt]
    exact if_pos (Int.ofNat_lt.mpr hlt)
  · have hnot : ¬ (kx : Int) > ky := fun h => hlt (Int.ofNat_lt.mp h)
    rw [if_neg hlt]
    exact (if_neg hnot).trans (if_neg hnot)

/-- The rank of a root of an exact forest is far from the largest `int`. -/
theorem Exact.wrap_eq (h : Exact n s) (hn : n ≤ 2147483647) (hx : x < n)
    (hxroot : next s.parent x = none) (hkx : s.rank[x]? = some (kx : Int)) :
    wrap ((kx : Int) + 1) = ((kx + 1 : Nat) : Int) := by
  rcases h.rank x hx hxroot with ⟨k, hk, -, -, hsize⟩
  obtain rfl : k = kx := by
    rw [hkx, Option.some.injEq] at hk
    omega
  -- The tree has no more vertices than the array has elements.
  have hpow : 2 ^ k < 2 ^ 31 := by
    have hle := ncard_tree_le n s.parent x
    omega
  have hlt := (Nat.pow_lt_pow_iff_right (by decide)).mp hpow
  rw [wrap_of_inRange ⟨by omega, by omega⟩]
  rfl

/-- A root is hung below another one, whose rank becomes the new height. -/
theorem Exact.link (h : Exact n s) (hx : x < n) (hy : y < n) (hxroot : next s.parent x = none)
    (hyroot : next s.parent y = none) (hxy : x ≠ y) (hkx : s.rank[x]? = some (kx : Int))
    (hky : s.rank[y]? = some (ky : Int)) {rank : List Int} {k : Nat} (hlen : rank.length = n)
    (hk : rank[x]? = some (k : Int)) (hother : ∀ r, r ≠ x → rank[r]? = s.rank[r]?)
    (hmax : k = max kx (ky + 1)) (hle : ky ≤ kx) :
    Exact n ⟨s.parent.set y x, rank⟩ := by
  have hlt := h.forest.length ▸ hy
  rcases h.rank x hx hxroot with ⟨k₁, hk₁, hheight, ⟨v, hv, hdeep⟩, hsize⟩
  rcases h.rank y hy hyroot with ⟨k₂, hk₂, hheight', ⟨v', hv', hdeep'⟩, hsize'⟩
  obtain rfl : k₁ = kx := by
    rw [hkx, Option.some.injEq] at hk₁
    omega
  obtain rfl : k₂ = ky := by
    rw [hky, Option.some.injEq] at hk₂
    omega
  refine ⟨h.forest.link hx hy hxroot hyroot hxy, hlen, fun r hr hroot => ?_⟩
  have hry : r ≠ y := by
    rintro rfl
    rw [next_set hlt, Function.update_self] at hroot
    cases hroot
  have hold : next s.parent r = none := by
    rw [next_set hlt, Function.update_of_ne hry] at hroot
    exact hroot
  by_cases hrx : r = x
  · subst hrx
    refine ⟨k, hk, fun u hu j hwalk => ?_, ?_, ?_⟩
    -- A walk to the root that stays is an old one, or it comes through the other root and has one
    -- link more.
    · rcases h.forest.walk_of_link hu hy hxroot hyroot hxy hwalk with
        ⟨-, i, hij, hold⟩ | ⟨-, hold⟩
      · have hdepth := hheight' u hu i hold
        omega
      · have hdepth := hheight u hu j hold
        omega
    -- The deepest vertex is the old one, or the one below the other root if the ranks are equal.
    · rcases Nat.lt_or_ge k₂ k₁ with hless | hsame
      · have hnew := walk_link hlt hxroot hyroot hxy hdeep
        rw [if_neg hxy, if_neg hxy] at hnew
        exact ⟨v, hv, by rwa [show k = k₁ by omega]⟩
      · have hnew := walk_link hlt hxroot hyroot hxy hdeep'
        rw [if_pos rfl, if_pos rfl] at hnew
        exact ⟨v', hv', by rwa [show k = k₂ + 1 by omega]⟩
    -- The rank goes up only where both trees have at least two to the same rank vertices.
    · rw [h.forest.tree_link hy hxroot hyroot hxy, ncard_tree_union hxy]
      rcases Nat.lt_or_ge k₂ k₁ with hless | hsame
      · rw [show k = k₁ by omega]
        omega
      · rw [show k = k₂ + 1 by omega, Nat.pow_succ]
        obtain rfl : k₁ = k₂ := by omega
        omega
  -- The tree of any other root is what it was.
  · rcases h.rank r hr hold with ⟨k', hk', hheight, ⟨u, hu, hdeep⟩, hsize⟩
    refine ⟨k', (hother r hrx).trans hk', fun w hw j hwalk => ?_, ⟨u, hu, ?_⟩, ?_⟩
    · rcases h.forest.walk_of_link hw hy hxroot hyroot hxy hwalk with ⟨heq, -⟩ | ⟨-, hwalk⟩
      · exact absurd heq hrx
      · exact hheight w hw j hwalk
    · have hnew := walk_link hlt hxroot hyroot hxy hdeep
      rwa [if_neg hry, if_neg hry] at hnew
    · rw [h.forest.tree_link_other hy hxroot hyroot hxy hrx hry]
      exact hsize

/-- A union of two roots whose second one does not have the larger rank. -/
theorem Exact.unite_of_le (h : Exact n s) (hn : n ≤ 2147483647) (hx : x < n) (hy : y < n)
    (hxroot : next s.parent x = none) (hyroot : next s.parent y = none) (hxy : x ≠ y)
    (hkx : s.rank[x]? = some (kx : Int)) (hky : s.rank[y]? = some (ky : Int)) (hle : ky ≤ kx) :
    ∃ t, unite x y s = .ok (1, t) ∧ Exact n t := by
  refine ⟨_, unite_eq hxy hkx hky, ?_⟩
  by_cases hlt : ky < kx
  · rw [if_pos hlt]
    exact h.link hx hy hxroot hyroot hxy hkx hky h.ranks hkx (fun r _ => rfl) (by omega) hle
  · rw [if_neg hlt, h.wrap_eq hn hx hxroot hkx]
    refine h.link hx hy hxroot hyroot hxy hkx hky (List.length_set.trans h.ranks)
      (List.getElem?_set_self (h.ranks ▸ hx)) (fun r hr => ?_) (by omega) hle
    exact List.getElem?_set_ne (Ne.symm hr)

/-- A union of two roots whose second one has the larger rank. -/
theorem Exact.unite_of_lt (h : Exact n s) (hn : n ≤ 2147483647) (hx : x < n) (hy : y < n)
    (hxroot : next s.parent x = none) (hyroot : next s.parent y = none) (hxy : x ≠ y)
    (hkx : s.rank[x]? = some (kx : Int)) (hky : s.rank[y]? = some (ky : Int)) (hlt : kx < ky) :
    ∃ t, unite x y s = .ok (1, t) ∧ ¬ Shallow n t := by
  refine ⟨_, unite_eq hxy hkx hky, fun hshallow => ?_⟩
  rw [if_neg (by omega), h.wrap_eq hn hx hxroot hkx] at hshallow
  have hylt := h.forest.length ▸ hy
  rcases h.rank y hy hyroot with ⟨k₂, hk₂, -, ⟨v, hv, hdeep⟩, -⟩
  obtain rfl : k₂ = ky := by
    rw [hky, Option.some.injEq] at hk₂
    omega
  have hroot : next (s.parent.set y x) x = none := by
    rw [next_set hylt, Function.update_of_ne hxy]
    exact hxroot
  rcases hshallow.rank x hx hroot with ⟨k, hk, hheight, -⟩
  rw [List.getElem?_set_self (h.ranks ▸ hx), Option.some.injEq] at hk
  -- The deepest vertex below the second root is one link deeper now.
  have hnew := walk_link hylt hxroot hyroot hxy hdeep
  rw [if_pos rfl, if_pos rfl] at hnew
  have hle := hheight v hv _ hnew
  omega

end Union

/-! ### Runs -/

/-- The roots of the two vertices are the same, or the second one does not have the larger
    rank. -/
def Ranked (s : Arrays) (x y : Int) : Prop :=
  ∀ rx ry kx ky, findRoot x s.parent = some (.ok rx) → findRoot y s.parent = some (.ok ry) →
    item s.rank rx = .ok kx → item s.rank ry = .ok ky → rx = ry ∨ ky ≤ kx

/-- One more union behind others. -/
theorem unions_snoc {es : List (Int × Int)} {s m : Arrays} (h : unions es s = some (.ok m))
    (x y : Int) {r : Int} {t : Arrays} (hstep : unionVertices x y m = some (.ok (r, t))) :
    unions (es ++ [(x, y)]) s = some (.ok t) := by
  induction es generalizing s with
  | nil =>
      cases h
      rw [List.nil_append, unions]
      simp only [hstep]
      rfl
  | cons e es ih =>
      rcases e with ⟨a, b⟩
      rw [unions] at h
      rw [List.cons_append, unions]
      cases hu : unionVertices a b s with
      | none =>
          rw [hu] at h
          cases h
      | some res =>
          rw [hu] at h
          cases res with
          | error e => cases h
          | ok p => exact ih h

/-- Filled arrays have exact ranks. -/
theorem exact_fill (n : Nat) : Exact n (Arrays.fill n) := by
  rcases forest_fill n with ⟨hforest, hroots⟩
  refine ⟨hforest, List.length_replicate, fun r hr hroot => ⟨0, ?_, fun v hv j hwalk => ?_,
    ⟨r, hr, [], ⟨rfl, hroot⟩, rfl⟩, ?_⟩⟩
  · exact List.getElem?_replicate_of_lt hr
  · have hself : Walk (Arrays.fill n).parent v v 0 := ⟨[], ⟨rfl, hroots v hv⟩, rfl⟩
    exact Nat.le_of_eq (hwalk.unique hself).2
  · exact (Set.ncard_pos (finite_tree n _ r)).mpr ⟨r, hr, rootOf_self hroot⟩

section Runs

variable {n : Nat} {s : Arrays}

/-- One union either has ranked roots and keeps the ranks exact, or the trees are not
    shallow after it. -/
theorem Exact.step (h : Exact n s) (hn : n ≤ 2147483647) {x y : Int} (hx : IsVertex n x)
    (hy : IsVertex n y) :
    ∃ r t, unionVertices x y s = some (.ok (r, t)) ∧
      (Ranked s x y ∧ Exact n t ∨ ¬ Ranked s x y ∧ ¬ Shallow n t) := by
  rcases Int.eq_ofNat_of_zero_le hx.1 with ⟨a, rfl⟩
  rcases Int.eq_ofNat_of_zero_le hy.1 with ⟨b, rfl⟩
  have ha : a < n := Int.ofNat_lt.mp hx.2
  have hb : b < n := Int.ofNat_lt.mp hy.2
  rcases h.forest.exists_root ha with ⟨ra, hra⟩
  rcases h.forest.exists_root hb with ⟨rb, hrb⟩
  have hfa := h.forest.findRoot_eq ha hra
  have hfb := h.forest.findRoot_eq hb hrb
  rcases h.forest.root_lt ha hra with ⟨hralt, hranone⟩
  rcases h.forest.root_lt hb hrb with ⟨hrblt, hrbnone⟩
  rcases h.rank ra hralt hranone with ⟨ka, hka, -⟩
  rcases h.rank rb hrblt hrbnone with ⟨kb, hkb, -⟩
  -- The roots and their ranks are what the calls find.
  have hranked : Ranked s a b ↔ ra = rb ∨ kb ≤ ka := by
    constructor
    · intro hr
      have hor := hr ra rb ka kb hfa hfb (item_eq hka) (item_eq hkb)
      omega
    · intro hor rx ry kx ky hrx hry hkx hky
      rw [hfa, Option.some.injEq, Except.ok.injEq] at hrx
      rw [hfb, Option.some.injEq, Except.ok.injEq] at hry
      rw [← hrx, item_eq hka, Except.ok.injEq] at hkx
      rw [← hry, item_eq hkb, Except.ok.injEq] at hky
      omega
  have hunion : unionVertices a b s = some (unite ra rb s) := by
    unfold unionVertices
    simp only [hfa, hfb]
  rw [hunion, hranked]
  by_cases hsame : ra = rb
  · rw [hsame, unite_same]
    exact ⟨0, s, rfl, Or.inl ⟨Or.inl rfl, h⟩⟩
  · rcases Nat.lt_or_ge ka kb with hlt | hle
    · rcases h.unite_of_lt hn hralt hrblt hranone hrbnone hsame hka hkb hlt with
        ⟨t, ht, hnot⟩
      exact ⟨1, t, congrArg some ht, Or.inr ⟨by omega, hnot⟩⟩
    · rcases h.unite_of_le hn hralt hrblt hranone hrbnone hsame hka hkb hle with
        ⟨t, ht, hexact⟩
      exact ⟨1, t, congrArg some ht, Or.inl ⟨Or.inr hle, hexact⟩⟩

/-- Ranks stay exact as long as each union has ranked roots, or leaves the trees shallow. -/
theorem exact_of_steps (hn : n ≤ 2147483647) {es : List (Int × Int)}
    (hes : ∀ e ∈ es, IsVertex n e.1 ∧ IsVertex n e.2)
    (h : ∀ es' x y s t, es' ++ [(x, y)] <+: es → unions es' (Arrays.fill n) = some (.ok s) →
      unions (es' ++ [(x, y)]) (Arrays.fill n) = some (.ok t) → Ranked s x y ∨ Shallow n t)
    (es' : List (Int × Int)) (hpre : es' <+: es) :
    ∃ s, unions es' (Arrays.fill n) = some (.ok s) ∧ Exact n s := by
  induction es' using List.reverseRecOn with
  | nil => exact ⟨Arrays.fill n, rfl, exact_fill n⟩
  | append_singleton es' e ih =>
      rcases e with ⟨x, y⟩
      rcases ih ((List.prefix_append es' _).trans hpre) with ⟨s, hs, hexact⟩
      have hvertex := hes (x, y) (hpre.subset (List.mem_append_right _ List.mem_cons_self))
      rcases hexact.step hn hvertex.1 hvertex.2 with ⟨r, t, hstep, hcases⟩
      have ht := unions_snoc hs x y hstep
      refine ⟨t, ht, ?_⟩
      rcases hcases with ⟨-, hexact'⟩ | ⟨hnot, hdeep⟩
      · exact hexact'
      · exact ((h es' x y s t hpre hs ht).elim hnot hdeep).elim

/-- The trees stay shallow throughout a sequence of unions if and only if no union hangs a
    root below another one of smaller rank. The arrays are indexed by `int`s. -/
theorem unions_shallow_iff (hn : n ≤ 2147483647) {es : List (Int × Int)}
    (hes : ∀ e ∈ es, IsVertex n e.1 ∧ IsVertex n e.2) :
    (∀ es', es' <+: es → ∃ s, unions es' (Arrays.fill n) = some (.ok s) ∧ Shallow n s) ↔
      ∀ es' x y, es' ++ [(x, y)] <+: es → ∀ s, unions es' (Arrays.fill n) = some (.ok s) →
        Ranked s x y := by
  constructor
  · intro hshallow
    -- As long as all trees are shallow, the ranks are exact, and then a call that
    -- ranks wrongly makes a tree too deep.
    have hexact := exact_of_steps hn hes (fun es' x y s t hpre _ ht => by
      rcases hshallow _ hpre with ⟨t', ht', hdeep⟩
      rw [ht, Option.some.injEq, Except.ok.injEq] at ht'
      exact Or.inr (ht' ▸ hdeep))
    intro es' x y hpre s hs
    rcases hexact es' ((List.prefix_append es' _).trans hpre) with ⟨s', hs', hexact⟩
    rw [hs, Option.some.injEq, Except.ok.injEq] at hs'
    rw [← hs'] at hexact
    have hvertex := hes (x, y) (hpre.subset (List.mem_append_right _ List.mem_cons_self))
    rcases hexact.step hn hvertex.1 hvertex.2 with ⟨r, t, hstep, ⟨hranked, -⟩ | ⟨-, hdeep⟩⟩
    · exact hranked
    · rcases hshallow _ hpre with ⟨t', ht', hshallow'⟩
      rw [unions_snoc hs x y hstep, Option.some.injEq, Except.ok.injEq] at ht'
      rw [ht'] at hdeep
      exact absurd hshallow' hdeep
  · intro hranked es' hpre
    rcases exact_of_steps hn hes (fun es' x y s t hpre hs _ => Or.inl (hranked es' x y hpre s hs))
      es' hpre with ⟨s, hs, hexact⟩
    exact ⟨s, hs, hexact.shallow⟩

end Runs

theorem ranked_of_eq {s : Arrays} {x y rx ry kx ky : Int}
    (hx : findRoot x s.parent = some (.ok rx)) (hy : findRoot y s.parent = some (.ok ry))
    (hkx : item s.rank rx = .ok kx) (hky : item s.rank ry = .ok ky) (h : rx = ry ∨ ky ≤ kx) :
    Ranked s x y := by
  intro rx' ry' kx' ky' hx' hy' hkx' hky'
  rw [hx, Option.some.injEq, Except.ok.injEq] at hx'
  rw [hy, Option.some.injEq, Except.ok.injEq] at hy'
  subst hx' hy'
  rw [hkx, Except.ok.injEq] at hkx'
  rw [hky, Except.ok.injEq] at hky'
  subst hkx' hky'
  exact h

/-- In the edges of the sample the second root never has the larger rank. -/
theorem unions_shallow_sample :
    (∀ e ∈ [(0, 1), (1, 2), (1, 3), (2, 4)], IsVertex 6 e.1 ∧ IsVertex 6 e.2) ∧
    ∀ es', es' <+: [(0, 1), (1, 2), (1, 3), (2, 4)] →
      ∃ s, unions es' (Arrays.fill 6) = some (.ok s) ∧ Shallow 6 s := by
  refine ⟨by decide, (unions_shallow_iff (by decide) (by decide)).mpr ?_⟩
  rintro es' x y ⟨rest, happend⟩ s hs
  rcases es' with _ | ⟨a, _ | ⟨b, _ | ⟨c, _ | ⟨d, es'⟩⟩⟩⟩
  · cases happend
    cases hs
    exact ranked_of_eq rfl rfl rfl rfl (by decide)
  · cases happend
    cases hs
    exact ranked_of_eq rfl rfl rfl rfl (by decide)
  · cases happend
    cases hs
    exact ranked_of_eq rfl rfl rfl rfl (by decide)
  · cases happend
    cases hs
    exact ranked_of_eq rfl rfl rfl rfl (by decide)
  -- There are four edges only.
  · have hlen := congrArg List.length happend
    simp at hlen

/-- The second union hangs a tree of height one below a single vertex, whose rank becomes
    one although its tree has height two. -/
theorem unions_not_shallow : (∀ e ∈ [(0, 1), (2, 0)], IsVertex 3 e.1 ∧ IsVertex 3 e.2) ∧
    unions [(0, 1), (2, 0)] (Arrays.fill 3) = some (.ok ⟨[2, 0, -1], [1, 0, 1]⟩) ∧
      ¬ Shallow 3 ⟨[2, 0, -1], [1, 0, 1]⟩ := by
  refine ⟨by decide, rfl, fun h => ?_⟩
  rcases h.rank 2 (by decide) rfl with ⟨k, hk, hheight, -⟩
  have hone : 1 = k := by
    have hk : some (1 : Int) = some (k : Int) := hk
    rw [Option.some.injEq] at hk
    omega
  have hle := hheight 1 (by decide) 2 ⟨[1, 0], ⟨rfl, rfl, rfl, rfl⟩, rfl⟩
  omega

end DisjointSets

end BlogSample
