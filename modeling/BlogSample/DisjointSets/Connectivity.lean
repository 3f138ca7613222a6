import BlogSample.DisjointSets.Forest
import BlogSample.Theory.EdgeList

/-!
# Disjoint Sets Are Connected Components

What the arrays are for: two vertices have the same root exactly if the pairs
united so far join them. A union of joined vertices changes nothing, and one of
vertices that are not joined makes one root of two, which is what one more pair
does to what is joined.

## Main definitions

* `Represents`: The roots of the forest stand for what is joined.
* `unions`: A sequence of unions.

## Theorems

* `Represents.union_joined`, `Represents.union_apart`: One union.
* `Represents.unions`: A sequence of them.
* `unions_connectivity`: `FindRoot` and `UnionVertices` after a sequence of
  unions.
-/

namespace BlogSample

namespace DisjointSets

open DotNet EdgeList

/-- The arrays are a forest of `n` vertices, and two vertices have the same
    root exactly if they are joined. -/
structure Represents (n : Nat) (s : Arrays) (es : List (Int × Int)) : Prop where
  forest : Forest n s.parent
  ranks : s.rank.length = n
  joined (u v r r' : Nat) : u < n → v < n → RootOf s.parent u r → RootOf s.parent v r' →
    (r = r' ↔ Joined es u v)

/-- `UnionVertices` for one pair after the other. -/
def unions : List (Int × Int) → Arrays → Option (Except Exn Arrays)
  | [], s => some (pure s)
  | (x, y) :: es, s =>
      match unionVertices x y s with
      | none => none
      | some (.error e) => some (throw e)
      | some (.ok (_, t)) => unions es t

/-- The integer is a vertex. -/
def IsVertex (n : Nat) (x : Int) : Prop :=
  0 ≤ x ∧ x < n

instance (n : Nat) (x : Int) : Decidable (IsVertex n x) :=
  inferInstanceAs (Decidable (_ ∧ _))

section

variable {n : Nat} {s : Arrays} {es : List (Int × Int)}

/-- The methods find the roots of two vertices. -/
theorem Represents.union_eq (h : Represents n s es) {x y rx ry : Nat} (hx : x < n) (hy : y < n)
    (hxroot : RootOf s.parent x rx) (hyroot : RootOf s.parent y ry) :
    unionVertices x y s = some (unite rx ry s) := by
  unfold unionVertices
  simp only [h.forest.findRoot_eq hx hxroot, h.forest.findRoot_eq hy hyroot]

/-- A union of vertices that are joined. -/
theorem Represents.union_joined (h : Represents n s es) {x y : Nat} (hx : x < n) (hy : y < n)
    (hjoined : Joined es x y) :
    unionVertices x y s = some (.ok (0, s)) ∧ Represents n s (es ++ [((x : Int), (y : Int))]) := by
  rcases h.forest.exists_root hx with ⟨rx, hxroot⟩
  rcases h.forest.exists_root hy with ⟨ry, hyroot⟩
  have hsame : rx = ry := (h.joined x y rx ry hx hy hxroot hyroot).mpr hjoined
  refine ⟨?_, h.forest, h.ranks, fun u v r r' hu hv hr hr' => ?_⟩
  · rw [h.union_eq hx hy hxroot hyroot, hsame, unite_same]
  · rw [h.joined u v r r' hu hv hr hr', joined_concat]
    constructor
    · exact Or.inl
    -- What the new pair joins was joined already.
    · intro hnew
      rcases hnew with huv | ⟨hux, hyv⟩ | ⟨huy, hxv⟩
      · exact huv
      · exact (hux.trans hjoined).trans hyv
      · exact (huy.trans hjoined.symm).trans hxv

/-- A union of vertices that are not. -/
theorem Represents.union_apart (h : Represents n s es) {x y : Nat} (hx : x < n) (hy : y < n)
    (hapart : ¬ Joined es x y) : ∃ t, unionVertices x y s = some (.ok (1, t)) ∧
      Represents n t (es ++ [((x : Int), (y : Int))]) := by
  rcases h.forest.exists_root hx with ⟨rx, hxroot⟩
  rcases h.forest.exists_root hy with ⟨ry, hyroot⟩
  have hne : rx ≠ ry := fun hsame => hapart ((h.joined x y rx ry hx hy hxroot hyroot).mp hsame)
  rcases h.forest.root_lt hx hxroot with ⟨hrx, hrxroot⟩
  rcases h.forest.root_lt hy hyroot with ⟨hry, hryroot⟩
  rcases unite_link (h.ranks ▸ hrx) (h.ranks ▸ hry) hne with ⟨rank, hunite, hrank⟩
  refine ⟨_, (h.union_eq hx hy hxroot hyroot).trans (congrArg some hunite),
    h.forest.link hrx hry hrxroot hryroot hne, hrank.trans h.ranks,
    fun u v r r' hu hv hr hr' => ?_⟩
  rcases h.forest.exists_root hu with ⟨ru, huroot⟩
  rcases h.forest.exists_root hv with ⟨rv, hvroot⟩
  have hlt := h.forest.length ▸ hry
  rw [hr.unique (rootOf_link hlt huroot hrxroot hryroot hne),
    hr'.unique (rootOf_link hlt hvroot hrxroot hryroot hne), joined_concat,
    ← h.joined u v ru rv hu hv huroot hvroot, ← h.joined u x ru rx hu hx huroot hxroot,
    ← h.joined y v ry rv hy hv hyroot hvroot, ← h.joined u y ru ry hu hy huroot hyroot,
    ← h.joined x v rx rv hx hv hxroot hvroot]
  -- What had the second root has the first one now.
  by_cases hru : ru = ry
  · by_cases hrv : rv = ry
    · rw [if_pos hru, if_pos hrv]
      omega
    · rw [if_pos hru, if_neg hrv]
      omega
  · by_cases hrv : rv = ry
    · rw [if_neg hru, if_pos hrv]
      omega
    · rw [if_neg hru, if_neg hrv]
      omega

/-- A union of two vertices. -/
theorem Represents.union (h : Represents n s es) {x y : Int} (hx : IsVertex n x)
    (hy : IsVertex n y) :
    (Joined es x y → unionVertices x y s = some (.ok (0, s)) ∧
      Represents n s (es ++ [(x, y)])) ∧
    (¬ Joined es x y → ∃ t, unionVertices x y s = some (.ok (1, t)) ∧
      Represents n t (es ++ [(x, y)])) := by
  rcases Int.eq_ofNat_of_zero_le hx.1 with ⟨a, rfl⟩
  rcases Int.eq_ofNat_of_zero_le hy.1 with ⟨b, rfl⟩
  exact ⟨h.union_joined (Int.ofNat_lt.mp hx.2) (Int.ofNat_lt.mp hy.2),
    h.union_apart (Int.ofNat_lt.mp hx.2) (Int.ofNat_lt.mp hy.2)⟩

/-- A sequence of unions. -/
theorem Represents.unions (new : List (Int × Int)) : ∀ {s : Arrays} {es : List (Int × Int)},
    Represents n s es → (∀ e ∈ new, IsVertex n e.1 ∧ IsVertex n e.2) →
      ∃ t, unions new s = some (.ok t) ∧ Represents n t (es ++ new) := by
  induction new with
  | nil =>
      intro s es h _
      exact ⟨s, rfl, (List.append_nil es).symm ▸ h⟩
  | cons e new ih =>
      intro s es h hnew
      rcases hnew e List.mem_cons_self with ⟨hx, hy⟩
      have hrest := fun e he => hnew e (List.mem_cons_of_mem _ he)
      have hsplit : es ++ e :: new = es ++ [e] ++ new := (List.append_cons es e new)
      have hgoes (r : Int) (m : Arrays) (hstep : unionVertices e.1 e.2 s = some (.ok (r, m)))
          (hm : Represents n m (es ++ [e])) : ∃ t, DisjointSets.unions (e :: new) s =
            some (.ok t) ∧ Represents n t (es ++ e :: new) := by
        rcases ih hm hrest with ⟨t, hrun, ht⟩
        refine ⟨t, ?_, hsplit ▸ ht⟩
        rw [DisjointSets.unions]
        simp only [hstep, hrun]
      by_cases hjoined : Joined es e.1 e.2
      · rcases (h.union hx hy).1 hjoined with ⟨hstep, hm⟩
        exact hgoes 0 s hstep hm
      · rcases (h.union hx hy).2 hjoined with ⟨m, hstep, hm⟩
        exact hgoes 1 m hstep hm

/-- In filled arrays, every vertex is its own root. -/
theorem represents_fill (n : Nat) : Represents n (Arrays.fill n) [] := by
  rcases forest_fill n with ⟨hforest, hroot⟩
  refine ⟨hforest, List.length_replicate, fun u v r r' hu hv hr hr' => ?_⟩
  rw [hr.unique (rootOf_self (hroot u hu)), hr'.unique (rootOf_self (hroot v hv)), joined_nil,
    Int.natCast_inj]

/-- After a sequence of unions from filled arrays, the parents have no circle
    and `FindRoot` finds a vertex for each vertex, the same one for two of them
    exactly if the pairs join them. A further union returns 0 and changes
    nothing if its vertices are joined, and returns 1 if they are not. -/
theorem unions_connectivity {n : Nat} {es : List (Int × Int)}
    (hes : ∀ e ∈ es, IsVertex n e.1 ∧ IsVertex n e.2) :
    ∃ s, unions es (Arrays.fill n) = some (.ok s) ∧
      (∀ v < n, ¬ Relation.TransGen (fun u w => next s.parent u = some w) v v) ∧
      (∀ x, IsVertex n x → ∃ r, findRoot x s.parent = some (.ok r) ∧ IsVertex n r) ∧
      (∀ x y, IsVertex n x → IsVertex n y →
        (findRoot x s.parent = findRoot y s.parent ↔ Joined es x y)) ∧
      ∀ x y, IsVertex n x → IsVertex n y →
        (Joined es x y → unionVertices x y s = some (.ok (0, s))) ∧
        (¬ Joined es x y → ∃ t, unionVertices x y s = some (.ok (1, t))) := by
  rcases (represents_fill n).unions es hes with ⟨s, hrun, h⟩
  rw [List.nil_append] at h
  -- Every vertex has a root, which `FindRoot` returns.
  have hfind (x : Int) (hx : IsVertex n x) : ∃ v r : Nat, x = v ∧ v < n ∧
      RootOf s.parent v r ∧ r < n ∧ findRoot x s.parent = some (.ok r) := by
    rcases Int.eq_ofNat_of_zero_le hx.1 with ⟨v, rfl⟩
    have hv : v < n := Int.ofNat_lt.mp hx.2
    rcases h.forest.exists_root hv with ⟨r, hroot⟩
    exact ⟨v, r, rfl, hv, hroot, (h.forest.root_lt hv hroot).1, h.forest.findRoot_eq hv hroot⟩
  refine ⟨s, hrun, fun v hv => ?_, fun x hx => ?_, fun x y hx hy => ?_, fun x y hx hy => ?_⟩
  · rcases h.forest.chain v hv with ⟨l, hchain⟩
    exact hchain.acyclic
  · rcases hfind x hx with ⟨v, r, -, -, -, hr, hfound⟩
    exact ⟨r, hfound, Int.natCast_nonneg r, Int.ofNat_lt.mpr hr⟩
  · rcases hfind x hx with ⟨v, r, rfl, hv, hroot, -, hfound⟩
    rcases hfind y hy with ⟨w, r', rfl, hw, hroot', -, hfound'⟩
    rw [hfound, hfound', ← h.joined v w r r' hv hw hroot hroot', Option.some.injEq,
      Except.ok.injEq, Int.natCast_inj]
  · refine ⟨fun hjoined => ((h.union hx hy).1 hjoined).1, fun hapart => ?_⟩
    rcases (h.union hx hy).2 hapart with ⟨t, hstep, -⟩
    exact ⟨t, hstep⟩

end

/-- The first four edges of the sample have joined the first and the last of
    their vertices. -/
theorem unions_connectivity_sample : ∃ s,
    unions [(0, 1), (1, 2), (1, 3), (2, 4)] (Arrays.fill 6) = some (.ok s) ∧
    findRoot 0 s.parent = findRoot 4 s.parent ∧ unionVertices 0 4 s = some (.ok (0, s)) := by
  have hjoined : Joined [(0, 1), (1, 2), (1, 3), (2, 4)] (0 : Int) 4 :=
    .trans (.rel 0 1 (by decide)) (.trans (.rel 1 2 (by decide)) (.rel 2 4 (by decide)))
  rcases @unions_connectivity 6 [(0, 1), (1, 2), (1, 3), (2, 4)] (by decide) with
    ⟨s, hrun, -, -, hroots, hunion⟩
  exact ⟨s, hrun, (hroots 0 4 (by decide) (by decide)).mpr hjoined,
    (hunion 0 4 (by decide) (by decide)).1 hjoined⟩

end DisjointSets

end BlogSample
