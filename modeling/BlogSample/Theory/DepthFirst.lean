import Mathlib.Algebra.BigOperators.Group.Finset.Basic
import Mathlib.Algebra.Order.BigOperators.Group.Finset
import Mathlib.Data.Multiset.Count
import Mathlib.Logic.Relation
import Mathlib.Tactic.Abel

/-!
# Depth-First Search with a Flag

A depth-first search that raises a flag whenever it comes to a vertex that is
marked already. Marks are never taken back, so the flag does not tell a vertex
on the way from one that has been left again.

The search is a relation between what is marked before and after, for a list of
vertices to come to. Each vertex that gets marked adds its successors to the
vertices the search comes to, once for each edge, and adds them only once. So
the flag is raised if and only if the search comes to more vertices, counted as
often as it does, than it marks.

Where no vertex has two edges, the search is a trail: it follows the first edge
each time, and what it comes to are the vertices of that walk until one of them
is marked.

## Main definitions

* `Visits`: The search, for a list of vertices.
* `calls`: The vertices the search comes to.
* `Reach`, `Cyclic`, `ReachesCycle`: Paths and cycles.
* `Joins`: Two edges that can be reached from a vertex lead to the same vertex.
* `Trail`: The search where no vertex has two edges.
* `walk`, `PassesAt`: The walk along the first edges, as far as it is new.

## Theorems

* `Visits.spec`: What is marked, and when the flag is raised.
* `Visits.flag_iff`: A search that starts below a vertex.
* `exists_flag_iff`: All the searches that start below a vertex.
* `Joins.cyclic`: Where no vertex has two edges, edges join on a cycle only.
* `Trail.stops`: A trail that stops reaches no cycle.
* `Round.getElem?_eq_some_iff`: What is on a trail that comes back.
-/

namespace BlogSample

namespace DepthFirst

universe u

section

variable {V : Type u} (succ : V → List V)

/-- There is a path from a vertex to another one, or they are the same. -/
abbrev Reach (a b : V) : Prop :=
  Relation.ReflTransGen (fun a b => b ∈ succ a) a b

/-- There is a cycle. -/
def Cyclic : Prop :=
  ∃ a, Relation.TransGen (fun a b => b ∈ succ a) a a

/-- Two edges that can be reached from a vertex lead to the same vertex. They come
    from different vertices, or one vertex has both. -/
def Joins [DecidableEq V] (j : V) : Prop :=
  ∃ v a b, Reach succ j a ∧ Reach succ j b ∧ v ∈ succ a ∧ v ∈ succ b ∧
    (a ≠ b ∨ 2 ≤ (succ a).count v)

end

variable {V : Type u} [DecidableEq V] (succ : V → List V)

/-- The search for a list of vertices, with the marked vertices and the flag before
    and after. -/
inductive Visits : List V → Finset V × Bool → Finset V × Bool → Prop
  | nil (s : Finset V × Bool) : Visits [] s s
  | seen (i : V) (L : List V) (M : Finset V) (f : Bool) (t : Finset V × Bool) :
      i ∈ M → Visits L (M, true) t → Visits (i :: L) (M, f) t
  | new (i : V) (L : List V) (M : Finset V) (f : Bool) (u t : Finset V × Bool) :
      i ∉ M → Visits (succ i) (insert i M, f) u → Visits L u t → Visits (i :: L) (M, f) t

/-- The vertices that a search comes to which marks the given ones. -/
def calls (L : List V) (marked : Finset V) : Multiset V :=
  (L : Multiset V) + ∑ a ∈ marked, (succ a : Multiset V)

variable {succ}

theorem Visits.append {L L' : List V} {s u t : Finset V × Bool} (h : Visits succ L s u)
    (h' : Visits succ L' u t) : Visits succ (L ++ L') s t := by
  induction h with
  | nil s => exact h'
  | seen i L M f u hi _ ih => exact .seen i (L ++ L') M f t hi (ih h')
  | new i L M f v u hi hv _ _ ih => exact .new i (L ++ L') M f v t hi hv (ih h')

/-- What a search has marked. -/
structure Marks (succ : V → List V) (L : List V) (s t : Finset V × Bool) (marked : Finset V) :
    Prop where
  disjoint : Disjoint s.1 marked
  union : t.1 = s.1 ∪ marked
  le_calls : marked.val ≤ calls succ L marked
  mem_of_calls : ∀ c ∈ calls succ L marked, c ∈ s.1 ∪ marked
  reach : ∀ v ∈ marked, ∃ j ∈ L, Reach succ j v
  flag : t.2 = true ↔ s.2 = true ∨ marked.card < (calls succ L marked).card

omit [DecidableEq V] in
theorem calls_cons (i : V) (L : List V) (marked : Finset V) :
    calls succ (i :: L) marked = i ::ₘ calls succ L marked := by
  unfold calls
  rw [← Multiset.cons_coe, Multiset.cons_add]

omit [DecidableEq V] in
theorem mem_calls {L : List V} {marked : Finset V} {v : V} :
    v ∈ calls succ L marked ↔ v ∈ L ∨ ∃ a ∈ marked, v ∈ succ a := by
  unfold calls
  rw [Multiset.mem_add, Multiset.mem_coe, Multiset.mem_sum]
  rfl

/-- A vertex that is marked already raises the flag. -/
theorem Marks.seen {i : V} {L : List V} {M : Finset V} {f : Bool} {t : Finset V × Bool}
    {marked : Finset V} (hi : i ∈ M) (h : Marks succ L (M, true) t marked) :
    Marks succ (i :: L) (M, f) t marked := by
  refine ⟨h.disjoint, h.union, ?_, fun c hc => ?_, fun v hv => ?_, ?_⟩
  · rw [calls_cons]
    exact le_trans h.le_calls (Multiset.le_cons_self _ i)
  · rw [calls_cons] at hc
    rcases Multiset.mem_cons.mp hc with rfl | hc
    · exact Finset.mem_union_left _ hi
    · exact h.mem_of_calls c hc
  · rcases h.reach v hv with ⟨j, hj, hreach⟩
    exact ⟨j, List.mem_cons_of_mem i hj, hreach⟩
  -- There is one call more, and no new mark.
  · have hcard := Multiset.card_le_card h.le_calls
    rw [calls_cons, Multiset.card_cons]
    exact iff_of_true (h.flag.mpr (.inl rfl)) (.inr (Nat.lt_succ_of_le hcard))

/-- A new vertex is marked, then what its edges lead to, and then the rest. -/
theorem Marks.new {i : V} {L : List V} {M : Finset V} {f : Bool} {u t : Finset V × Bool}
    {below rest : Finset V} (hi : i ∉ M)
    (h : Marks succ (succ i) (insert i M, f) u below) (h' : Marks succ L u t rest) :
    Marks succ (i :: L) (M, f) t (insert i (below ∪ rest)) := by
  have hdisjoint := h.disjoint
  have hdisjoint' := h'.disjoint
  rw [h.union, Finset.disjoint_union_left] at hdisjoint'
  simp only [Finset.disjoint_insert_left] at hdisjoint hdisjoint'
  have hi' : i ∉ below ∪ rest := fun hmem =>
    (Finset.mem_union.mp hmem).elim hdisjoint.1 hdisjoint'.1.1
  -- The new vertex is one call, and its edges are the calls of the search below it.
  have hcalls : calls succ (i :: L) (insert i (below ∪ rest)) =
      i ::ₘ (calls succ (succ i) below + calls succ L rest) := by
    rw [calls_cons]
    unfold calls
    rw [Finset.sum_insert hi', Finset.sum_union hdisjoint'.2]
    congr 1
    abel
  have hval : (insert i (below ∪ rest)).val = i ::ₘ (below.val + rest.val) := by
    rw [Finset.insert_val_of_notMem hi', ← Finset.disjUnion_eq_union below rest hdisjoint'.2]
    rfl
  have hunion : t.1 = M ∪ insert i (below ∪ rest) := by
    rw [h'.union, h.union]
    simp only [Finset.insert_union, Finset.union_insert, Finset.union_assoc]
  refine ⟨?_, hunion, ?_, fun c hc => ?_, fun v hv => ?_, ?_⟩
  · simp only [Finset.disjoint_insert_right, Finset.disjoint_union_right]
    exact ⟨hi, hdisjoint.2, hdisjoint'.1.2⟩
  · rw [hcalls, hval]
    exact Multiset.cons_le_cons i (add_le_add h.le_calls h'.le_calls)
  · rw [← hunion, h'.union]
    rw [hcalls] at hc
    rcases Multiset.mem_cons.mp hc with rfl | hc
    · rw [h.union]
      exact Finset.mem_union_left _ (Finset.mem_union_left _ (Finset.mem_insert_self c M))
    · rcases Multiset.mem_add.mp hc with hc | hc
      · rw [h.union]
        exact Finset.mem_union_left _ (h.mem_of_calls c hc)
      · exact h'.mem_of_calls c hc
  · rcases Finset.mem_insert.mp hv with rfl | hv
    · exact ⟨v, List.mem_cons_self, .refl⟩
    · rcases Finset.mem_union.mp hv with hv | hv
      · rcases h.reach v hv with ⟨j, hj, hreach⟩
        exact ⟨i, List.mem_cons_self, hreach.head hj⟩
      · rcases h'.reach v hv with ⟨j, hj, hreach⟩
        exact ⟨j, List.mem_cons_of_mem i hj, hreach⟩
  -- Either part may have more calls than marks, and neither can have fewer.
  · have hcard := Multiset.card_le_card h.le_calls
    have hcard' := Multiset.card_le_card h'.le_calls
    have hsize : (insert i (below ∪ rest)).card = below.card + rest.card + 1 := by
      rw [Finset.card_insert_of_notMem hi', Finset.card_union_of_disjoint hdisjoint'.2]
    rw [h'.flag, h.flag, hcalls, hsize, Multiset.card_cons, Multiset.card_add, or_assoc]
    refine or_congr Iff.rfl ?_
    change below.card ≤ _ at hcard
    change rest.card ≤ _ at hcard'
    omega

/-- A search marks vertices, and raises the flag if it comes to more. -/
theorem Visits.spec {L : List V} {s t : Finset V × Bool} (h : Visits succ L s t) :
    ∃ marked, Marks succ L s t marked := by
  induction h with
  | nil s =>
      refine ⟨∅, Finset.disjoint_empty_right _, (Finset.union_empty _).symm, ?_, fun c hc => ?_,
        fun v hv => absurd hv (Finset.notMem_empty v), ?_⟩
      · exact Multiset.zero_le _
      · exact absurd hc (Multiset.notMem_zero c)
      · exact (or_iff_left (Nat.lt_irrefl 0)).symm
  | seen i L M f t hi _ ih =>
      rcases ih with ⟨marked, h⟩
      exact ⟨marked, h.seen hi⟩
  | new i L M f u t hi _ _ ih ih' =>
      rcases ih with ⟨below, h⟩
      rcases ih' with ⟨rest, h'⟩
      exact ⟨_, h.new hi h'⟩

/-- A sum that is two or more has a summand that is, or two that are not zero. -/
theorem exists_of_two_le_sum {marked : Finset V} {f : V → ℕ} (h : 2 ≤ ∑ a ∈ marked, f a) :
    ∃ a ∈ marked, ∃ b ∈ marked, 0 < f a ∧ 0 < f b ∧ (a ≠ b ∨ 2 ≤ f a) := by
  rcases Finset.exists_ne_zero_of_sum_ne_zero (show ∑ a ∈ marked, f a ≠ 0 by omega) with
    ⟨a, ha, hfa⟩
  by_cases htwo : 2 ≤ f a
  · exact ⟨a, ha, a, ha, by omega, by omega, .inr htwo⟩
  -- This summand is one at most, so the others are not all zero.
  · have hrest := Finset.add_sum_erase marked f ha
    rcases Finset.exists_ne_zero_of_sum_ne_zero (show ∑ x ∈ marked.erase a, f x ≠ 0 by omega) with
      ⟨b, hb, hfb⟩
    exact ⟨a, ha, b, Finset.mem_of_mem_erase hb, by omega, by omega,
      .inl (Finset.ne_of_mem_erase hb).symm⟩

/-- Two summands of a sum that are not zero, or one that is two or more. -/
theorem two_le_sum_of_pair {marked : Finset V} {f : V → ℕ} {a b : V} (ha : a ∈ marked)
    (hb : b ∈ marked) (hfa : 0 < f a) (hfb : 0 < f b) (h : a ≠ b ∨ 2 ≤ f a) :
    2 ≤ ∑ a ∈ marked, f a := by
  have hrest := Finset.add_sum_erase marked f ha
  rcases h with hab | htwo
  · have hle := Finset.single_le_sum (f := f) (fun _ _ => Nat.zero_le _)
      (Finset.mem_erase.mpr ⟨Ne.symm hab, hb⟩)
    omega
  · omega

theorem count_calls (v j : V) (marked : Finset V) :
    (calls succ [j] marked).count v =
      (if v = j then 1 else 0) + ∑ a ∈ marked, (succ a).count v := by
  unfold calls
  rw [Multiset.count_add, Multiset.count_sum', Multiset.coe_singleton, Multiset.count_singleton]
  simp only [Multiset.coe_count]

/-- Where no vertex is come to twice, everything that can be reached is marked, and
    no two edges lead to one vertex. -/
theorem Marks.tree {i j : V} {f : Bool} {t : Finset V × Bool} {marked : Finset V}
    (h : Marks succ [j] ({i}, f) t marked) (hcard : (calls succ [j] marked).card ≤ marked.card) :
    ¬(Reach succ j i ∨ (∃ a, Reach succ j a ∧ j ∈ succ a) ∨ Joins succ j) := by
  -- There are no more calls than marks, so each vertex is called once.
  have heq : marked.val = calls succ [j] marked := Multiset.eq_of_le_of_card_le h.le_calls hcard
  have hmem {v : V} (hv : v ∈ [j] ∨ ∃ a ∈ marked, v ∈ succ a) : v ∈ marked := by
    rw [← Finset.mem_val, heq]
    exact mem_calls.mpr hv
  have hreach {v : V} (hv : Reach succ j v) : v ∈ marked := by
    induction hv with
    | refl => exact hmem (.inl (List.mem_singleton_self j))
    | tail _ hstep ih => exact hmem (.inr ⟨_, ih, hstep⟩)
  have hcount (v : V) : (calls succ [j] marked).count v ≤ 1 := by
    rw [← heq]
    exact Multiset.nodup_iff_count_le_one.mp marked.nodup v
  simp only [count_calls] at hcount
  rintro (hi | ⟨a, ha, hja⟩ | ⟨v, a, b, ha, hb, hva, hvb, hab⟩)
  · exact Finset.disjoint_left.mp h.disjoint (Finset.mem_singleton_self i) (hreach hi)
  · have hone := hcount j
    have hle := Finset.single_le_sum (f := fun a => (succ a).count j) (fun _ _ => Nat.zero_le _)
      (hreach ha)
    have hpos := List.count_pos_iff.mpr hja
    rw [if_pos rfl] at hone
    omega
  · have hone := hcount v
    have htwo := @two_le_sum_of_pair V _ marked (fun a => (succ a).count v) a b (hreach ha)
      (hreach hb) (List.count_pos_iff.mpr hva) (List.count_pos_iff.mpr hvb) hab
    omega

/-- Where a vertex is come to twice, it is marked from the start, or it is the one that
    the search starts from, or two edges lead to it. -/
theorem Marks.not_tree {i j : V} {f : Bool} {t : Finset V × Bool} {marked : Finset V}
    (h : Marks succ [j] ({i}, f) t marked) (hcard : marked.card < (calls succ [j] marked).card) :
    Reach succ j i ∨ (∃ a, Reach succ j a ∧ j ∈ succ a) ∨ Joins succ j := by
  have hreach {a : V} (ha : a ∈ marked) : Reach succ j a := by
    rcases h.reach a ha with ⟨j', hj', hreach⟩
    rw [List.mem_singleton.mp hj'] at hreach
    exact hreach
  by_cases hi : i ∈ calls succ [j] marked
  · rcases mem_calls.mp hi with hij | ⟨a, ha, hia⟩
    · rw [List.mem_singleton.mp hij]
      exact .inl .refl
    · exact .inl ((hreach ha).tail hia)
  · right
    -- All calls are to marked vertices, and there are more of them, so one is repeated.
    have hsub : calls succ [j] marked ⊆ marked.val := fun c hc => by
      rcases Finset.mem_union.mp (h.mem_of_calls c hc) with hci | hc'
      · rw [Finset.mem_singleton.mp hci] at hc
        exact absurd hc hi
      · exact hc'
    have hdup : ¬(calls succ [j] marked).Nodup := fun hnodup => by
      have hle := Multiset.card_le_card ((Multiset.le_iff_subset hnodup).mpr hsub)
      exact absurd hcard (Nat.not_lt.mpr hle)
    rw [Multiset.nodup_iff_count_le_one, not_forall] at hdup
    rcases hdup with ⟨v, hv⟩
    rw [count_calls] at hv
    by_cases hvj : v = j
    · rw [if_pos hvj] at hv
      rcases Finset.exists_ne_zero_of_sum_ne_zero
        (show ∑ a ∈ marked, (succ a).count v ≠ 0 by omega) with ⟨a, ha, hne⟩
      refine .inl ⟨a, hreach ha, ?_⟩
      rw [← hvj]
      exact List.count_pos_iff.mp (Nat.pos_of_ne_zero hne)
    · rw [if_neg hvj] at hv
      rcases exists_of_two_le_sum (show 2 ≤ ∑ a ∈ marked, (succ a).count v by omega) with
        ⟨a, ha, b, hb, hva, hvb, hab⟩
      exact .inr ⟨v, a, b, hreach ha, hreach hb, List.count_pos_iff.mp hva,
        List.count_pos_iff.mp hvb, hab⟩

/-- A search from below a vertex raises the flag if that vertex can be reached, or the
    one it starts from can be reached again, or two edges lead to one vertex. -/
theorem Visits.flag_iff {i j : V} {f : Bool} {t : Finset V × Bool}
    (h : Visits succ [j] ({i}, f) t) :
    t.2 = true ↔ f = true ∨ Reach succ j i ∨ (∃ a, Reach succ j a ∧ j ∈ succ a) ∨
      Joins succ j := by
  rcases h.spec with ⟨marked, hmarks⟩
  rw [hmarks.flag]
  refine or_congr Iff.rfl ⟨hmarks.not_tree, fun hbad => ?_⟩
  by_contra hcard
  exact hmarks.tree (Nat.not_lt.mp hcard) hbad

/-- One of the searches that start below a vertex raises the flag if there is a cycle, or
    two edges that can be reached from the end of an edge lead to one vertex. -/
theorem exists_flag_iff :
    (∃ i, ∃ j ∈ succ i, Reach succ j i ∨ (∃ a, Reach succ j a ∧ j ∈ succ a) ∨ Joins succ j) ↔
      Cyclic succ ∨ ∃ i, ∃ j ∈ succ i, Joins succ j := by
  constructor
  · rintro ⟨i, j, hij, hreach | ⟨a, ha, hja⟩ | hjoins⟩
    · exact .inl ⟨i, Relation.TransGen.head' hij hreach⟩
    · exact .inl ⟨j, Relation.TransGen.tail' ha hja⟩
    · exact .inr ⟨i, j, hij, hjoins⟩
  · rintro (⟨i, hcycle⟩ | ⟨i, j, hij, hjoins⟩)
    · rcases Relation.TransGen.head'_iff.mp hcycle with ⟨j, hij, hreach⟩
      exact ⟨i, j, hij, .inl hreach⟩
    · exact ⟨i, j, hij, .inr (.inr hjoins)⟩

/-! ### Along single edges -/

/-- Where no vertex has two edges, two edges that can be reached from a vertex
    and lead to the same one are part of a cycle. -/
theorem Joins.cyclic {j : V} (h : Joins succ j) (hone : ∀ a, (succ a).length ≤ 1) :
    Cyclic succ := by
  rcases h with ⟨v, a, b, ha, hb, hva, hvb, hab⟩
  have huniq : Relator.RightUnique (fun a b => b ∈ succ a) := by
    intro a x y hx hy
    rcases List.mem_iff_getElem.mp hx with ⟨p, hp, rfl⟩
    rcases List.mem_iff_getElem.mp hy with ⟨q, hq, rfl⟩
    have hle := hone a
    obtain rfl : p = q := by omega
    rfl
  have hne : a ≠ b := by
    rcases hab with hab | hcount
    · exact hab
    · have hle := List.count_le_length (a := v) (l := succ a)
      have := hone a
      omega
  -- One of the two comes behind the other, and its edge leads back before it.
  rcases Relation.ReflTransGen.total_of_right_unique huniq ha hb with hreach | hreach
  · rcases Relation.ReflTransGen.cases_head hreach with rfl | ⟨w, hw, hwb⟩
    · exact absurd rfl hne
    · rw [huniq hw hva] at hwb
      exact ⟨v, Relation.TransGen.tail' hwb hvb⟩
  · rcases Relation.ReflTransGen.cases_head hreach with rfl | ⟨w, hw, hwa⟩
    · exact absurd rfl hne
    · rw [huniq hw hvb] at hwa
      exact ⟨v, Relation.TransGen.tail' hwa hva⟩

omit [DecidableEq V] in
/-- The vertices one comes to by taking the first edge each time. -/
def walk (succ : V → List V) (i : V) : ℕ → Option V
  | 0 => some i
  | p + 1 => (walk succ i p).bind (fun v => (succ v).head?)

/-- A walk is at a vertex, and has not been twice at one before. -/
def PassesAt (succ : V → List V) (i : V) (p : ℕ) (v : V) : Prop :=
  walk succ i p = some v ∧ ∀ a b, a < b → b < p → walk succ i a ≠ walk succ i b

/-- The vertices that a search comes to where no vertex has two edges, and whether the
    last one was marked. -/
inductive Trail (succ : V → List V) : Finset V → V → List V → Bool → Prop
  | seen (M : Finset V) (i : V) : i ∈ M → Trail succ M i [i] true
  | stop (M : Finset V) (i : V) : i ∉ M → succ i = [] → Trail succ M i [i] false
  | go (M : Finset V) (i j : V) (xs : List V) (f : Bool) :
      i ∉ M → succ i = [j] → Trail succ (insert i M) j xs f → Trail succ M i (i :: xs) f

/-- A cycle can be reached from a vertex. -/
def ReachesCycle (succ : V → List V) (i : V) : Prop :=
  ∃ c, Reach succ i c ∧ Relation.TransGen (fun a b => b ∈ succ a) c c

omit [DecidableEq V] in
theorem walk_succ {i j : V} (hi : (succ i).head? = some j) (p : ℕ) :
    walk succ i (p + 1) = walk succ j p := by
  induction p with
  | zero => exact hi
  | succ p ih =>
      rw [walk, ih]
      rfl

theorem Trail.getElem?_eq {M : Finset V} {i : V} {xs : List V} {f : Bool}
    (h : Trail succ M i xs f) {p : ℕ} (hp : p < xs.length) : xs[p]? = walk succ i p := by
  induction h generalizing p with
  | seen M i _ =>
      obtain rfl : p = 0 := by
        rw [List.length_singleton] at hp
        omega
      rfl
  | stop M i _ _ =>
      obtain rfl : p = 0 := by
        rw [List.length_singleton] at hp
        omega
      rfl
  | go M i j xs f _ hi _ ih =>
      cases p with
      | zero => rfl
      | succ p =>
          have hhead : (succ i).head? = some j := by
            rw [hi]
            rfl
          rw [walk_succ hhead, List.getElem?_cons_succ]
          exact ih (Nat.lt_of_succ_lt_succ hp)

/-- A trail that comes back has met no vertex twice before. -/
theorem Trail.comes_back {M : Finset V} {i : V} {xs : List V} (h : Trail succ M i xs true) :
    ∃ ys v, xs = ys ++ [v] ∧ ys.Nodup ∧ (∀ y ∈ ys, y ∉ M) ∧ (v ∈ M ∨ v ∈ ys) := by
  generalize hf : true = f at h
  induction h with
  | seen M i hi =>
      exact ⟨[], i, rfl, List.nodup_nil, fun y hy => absurd hy List.not_mem_nil, .inl hi⟩
  | stop M i _ _ => cases hf
  | go M i j xs f hi _ _ ih =>
      rcases ih hf with ⟨ys, v, rfl, hnodup, hnew, hv⟩
      -- What comes later was not marked when this vertex already was.
      have hi' : i ∉ ys := fun hmem => hnew i hmem (Finset.mem_insert_self i M)
      refine ⟨i :: ys, v, rfl, List.nodup_cons.mpr ⟨hi', hnodup⟩, fun y hy => ?_, ?_⟩
      · rcases List.mem_cons.mp hy with rfl | hy
        · exact hi
        · exact fun hmem => hnew y hy (Finset.mem_insert_of_mem hmem)
      · rcases hv with hv | hv
        · rcases Finset.mem_insert.mp hv with rfl | hv
          · exact .inr List.mem_cons_self
          · exact .inl hv
        · exact .inr (List.mem_cons_of_mem i hv)

omit [DecidableEq V] in
/-- Where the only edge leads to a vertex that reaches no cycle, none is reached. -/
theorem not_reachesCycle_of_edge {i j : V} (hi : succ i = [j]) (hj : ¬ReachesCycle succ j) :
    ¬ReachesCycle succ i := by
  have hedge {v : V} (hv : v ∈ succ i) : v = j := by
    rw [hi] at hv
    exact List.mem_singleton.mp hv
  rintro ⟨c, hreach, hcycle⟩
  -- The vertex may be on the cycle itself, and then the cycle goes through the edge.
  rcases Relation.ReflTransGen.cases_head hreach with rfl | ⟨v, hv, hreach⟩
  · rcases Relation.TransGen.head'_iff.mp hcycle with ⟨v, hv, hback⟩
    rw [hedge hv] at hback
    exact hj ⟨i, hback, hcycle⟩
  · rw [hedge hv] at hreach
    exact hj ⟨c, hreach, hcycle⟩

omit [DecidableEq V] in
theorem not_reachesCycle_of_nil {i : V} (hi : succ i = []) : ¬ReachesCycle succ i := by
  have hno {v : V} (hv : v ∈ succ i) : False := by
    rw [hi] at hv
    exact List.not_mem_nil hv
  rintro ⟨c, hreach, hcycle⟩
  rcases Relation.ReflTransGen.cases_head hreach with rfl | ⟨v, hv, -⟩
  · rcases Relation.TransGen.head'_iff.mp hcycle with ⟨v, hv, -⟩
    exact hno hv
  · exact hno hv

/-- A trail that stops reaches no cycle. -/
theorem Trail.stops {M : Finset V} {i : V} {xs : List V} (h : Trail succ M i xs false) :
    ¬ReachesCycle succ i := by
  generalize hf : false = f at h
  induction h with
  | seen M i _ => cases hf
  | stop M i _ hi => exact not_reachesCycle_of_nil hi
  | go M i j xs f _ hi _ ih => exact not_reachesCycle_of_edge hi (ih hf)

omit [DecidableEq V] in
/-- A walk that is twice at a vertex has gone round a cycle. -/
theorem walk_trans {i : V} {p q : ℕ} {u v : V} (hu : walk succ i p = some u)
    (hv : walk succ i (p + (q + 1)) = some v) : Relation.TransGen (fun a b => b ∈ succ a) u v := by
  induction q generalizing v with
  | zero =>
      rw [Nat.zero_add, walk, hu] at hv
      exact .single (List.mem_of_mem_head? hv)
  | succ q ih =>
      rw [← Nat.add_assoc, walk] at hv
      rcases Option.bind_eq_some_iff.mp hv with ⟨w, hw, hv⟩
      exact (ih hw).tail (List.mem_of_mem_head? hv)

omit [DecidableEq V] in
theorem walk_reach {i : V} {p : ℕ} {v : V} (hv : walk succ i p = some v) : Reach succ i v := by
  cases p with
  | zero =>
      cases hv
      exact .refl
  | succ p =>
      have hzero : walk succ i 0 = some i := rfl
      exact (walk_trans hzero (by rw [Nat.zero_add]; exact hv)).to_reflTransGen

/-- The vertices on a trail that comes back to where it started, or to itself. -/
structure Round (succ : V → List V) (i : V) (xs : List V) : Prop where
  exists_eq : ∃ ys v, i :: xs = ys ++ [v] ∧ ys.Nodup ∧ v ∈ ys
  getElem?_eq : ∀ p, p < xs.length + 1 → (i :: xs)[p]? = walk succ i p

theorem Trail.round {i j : V} {xs : List V} (hi : succ i = [j])
    (h : Trail succ {i} j xs true) : Round succ i xs := by
  rcases h.comes_back with ⟨ys, v, rfl, hnodup, hnew, hv⟩
  have hi' : i ∉ ys := fun hmem => hnew i hmem (Finset.mem_singleton_self i)
  refine ⟨⟨i :: ys, v, rfl, List.nodup_cons.mpr ⟨hi', hnodup⟩, ?_⟩, fun p hp => ?_⟩
  · rcases hv with hv | hv
    · rw [Finset.mem_singleton.mp hv]
      exact List.mem_cons_self
    · exact List.mem_cons_of_mem i hv
  · cases p with
    | zero => rfl
    | succ p =>
        have hhead : (succ i).head? = some j := by
          rw [hi]
          rfl
        rw [walk_succ hhead, List.getElem?_cons_succ]
        exact h.getElem?_eq (Nat.lt_of_succ_lt_succ hp)

omit [DecidableEq V] in
/-- The walk goes along the trail to its end. -/
theorem Round.walk_eq {i : V} {xs ys : List V} {v : V} (h : Round succ i xs)
    (heq : i :: xs = ys ++ [v]) (p : ℕ) (hp : p < ys.length + 1) :
    (ys ++ [v])[p]? = walk succ i p := by
  have hlen := congrArg List.length heq
  rw [List.length_cons, List.length_append, List.length_singleton] at hlen
  rw [← heq]
  exact h.getElem?_eq p (by omega)

omit [DecidableEq V] in
/-- The positions on the trail are those of the walk until it is at a vertex twice. -/
theorem Round.getElem?_eq_some_iff {i : V} {xs : List V} (h : Round succ i xs) (p : ℕ) (x : V) :
    (i :: xs)[p]? = some x ↔ PassesAt succ i p x := by
  -- Along the trail no vertex comes twice, but for the last one.
  rcases h.exists_eq with ⟨ys, v, heq, hnodup, hv⟩
  have hwalk := h.walk_eq heq
  rw [heq]
  constructor
  · intro hx
    have hp : p < ys.length + 1 := by
      have hp := (List.getElem?_eq_some_iff.mp hx).1
      rw [List.length_append, List.length_singleton] at hp
      exact hp
    refine ⟨(hwalk p hp).symm.trans hx, fun a b hab hbp heq => ?_⟩
    rw [← hwalk a (by omega), ← hwalk b (by omega), List.getElem?_append_left (by omega),
      List.getElem?_append_left (by omega)] at heq
    have hsame := (List.getElem?_inj (by omega) hnodup).mp heq
    omega
  · rintro ⟨hx, hdistinct⟩
    by_cases hp : p < ys.length + 1
    · rw [hwalk p hp]
      exact hx
    -- The last vertex of the trail is one that it has met.
    · rcases List.getElem?_of_mem hv with ⟨q, hq⟩
      have hqlt := (List.getElem?_eq_some_iff.mp hq).1
      refine absurd ?_ (hdistinct q ys.length hqlt (by omega))
      rw [← hwalk q (by omega), ← hwalk ys.length (by omega), List.getElem?_append_left hqlt, hq,
        List.getElem?_concat_length]

omit [DecidableEq V] in
theorem Round.reachesCycle {i : V} {xs : List V} (h : Round succ i xs) : ReachesCycle succ i := by
  rcases h.exists_eq with ⟨ys, v, heq, hnodup, hv⟩
  have hwalk := h.walk_eq heq
  -- The walk is at the last vertex of the trail once before.
  rcases List.getElem?_of_mem hv with ⟨q, hq⟩
  have hqlt := (List.getElem?_eq_some_iff.mp hq).1
  have hfirst : walk succ i q = some v := by
    rw [← hwalk q (by omega), List.getElem?_append_left hqlt, hq]
  have hlast : walk succ i (q + (ys.length - q - 1 + 1)) = some v := by
    rw [show q + (ys.length - q - 1 + 1) = ys.length by omega, ← hwalk ys.length (by omega),
      List.getElem?_concat_length]
  exact ⟨v, walk_reach hfirst, walk_trans hfirst hlast⟩

end DepthFirst

end BlogSample
