import BlogSample.DotNet
import BlogSample.Theory.Fuel

/-!
# Quicksort

`QuickSort`, which sorts a segment of an array in place. The pivot is the middle
element, which is swapped to the end; the loop of `Partition` then keeps the
elements up to `i` in two groups, those that are at most the pivot before those
that are larger, and `j` is where the second group begins.

An array is given by what stands before the segment, the segment itself and what
stands behind it. The calls change the segment only, so that the rest is
unchanged can be seen from where it stands.

The indices of a segment that lies in the array have no overflow.

## Main definitions

* `swap`, `partition`, `quickSort`: The functions.
* `segment`: The elements between two indices.

## Theorems

* `swap_append`: Two elements of an array.
* `partition_append`: What `Partition` does to a segment.
* `quickSort_append`: What `QuickSort` does to a segment.
* `quickSort_correct`: The segment is sorted, and nothing else is changed.
-/

namespace BlogSample

namespace QuickSortSample

open DotNet Fuel

/-- `Swap(arr, a, b)`. -/
def swap (arr : List Int) (a b : Int) : Except Exn (List Int) := do
  let tmp ← getItem arr a
  let x ← getItem arr b
  let arr ← setItem arr a x
  setItem arr b tmp

/-- The body of the loop over `i`, with the array and `j`. -/
def compare (r : Int) (s : List Int × Int) (i : Int) : Except Exn (List Int × Int) := do
  let x ← getItem s.1 i
  let p ← getItem s.1 r
  if x ≤ p then
    let arr ← swap s.1 i s.2
    pure (arr, s.2 + 1)
  else
    pure s

/-- `Partition(arr, l, r)`. -/
def partition (arr : List Int) (l r : Int) : Except Exn (List Int × Int) := do
  let pivot := l + (r - l).tdiv 2
  let arr ← swap arr pivot r
  let (arr, j) ← (upTo l r).foldlM (compare r) (arr, l)
  let arr ← swap arr j r
  pure (arr, j)

/-- `QuickSort(arr, l, r)`. -/
def quickSort : ℕ → List Int → Int → Int → Call Exn (List Int)
  | 0, _, _, _ => outOfFuel
  | fuel + 1, arr, l, r =>
      if l ≥ r then pure arr
      else do
        let (arr, p) ← partition arr l r
        let arr ← quickSort fuel arr l (p - 1)
        quickSort fuel arr (p + 1) r

/-- `arr[l..r]`, with both ends. -/
def segment (arr : List Int) (l r : Int) : List Int :=
  (arr.drop l.toNat).take (r - l + 1).toNat

/-! ### Partition -/

/-- Two elements at different places. -/
theorem swap_append (A B C : List Int) (x y : Int) {a b : Int} (ha : a = A.length)
    (hb : b = A.length + B.length + 1) :
    swap (A ++ x :: (B ++ y :: C)) a b = .ok (A ++ y :: (B ++ x :: C)) ∧
      swap (A ++ x :: (B ++ y :: C)) b a = .ok (A ++ y :: (B ++ x :: C)) := by
  -- The list is cut at one position or at the other.
  have hassoc (u v : Int) : A ++ u :: (B ++ v :: C) = (A ++ u :: B) ++ v :: C := by
    simp only [List.append_assoc, List.cons_append]
  have hb' (u : Int) : b = (A ++ u :: B).length := by
    rw [List.length_append, List.length_cons, hb]
    omega
  have hfirst (u v : Int) : getItem (A ++ u :: (B ++ v :: C)) a = .ok u := getItem_append A _ u ha
  have hsecond (u v : Int) : getItem (A ++ u :: (B ++ v :: C)) b = .ok v := by
    rw [hassoc]
    exact getItem_append _ C v (hb' u)
  have hsetFirst (u v w : Int) :
      setItem (A ++ u :: (B ++ v :: C)) a w = .ok (A ++ w :: (B ++ v :: C)) :=
    setItem_append A _ u w ha
  have hsetSecond (u v w : Int) :
      setItem (A ++ u :: (B ++ v :: C)) b w = .ok (A ++ u :: (B ++ w :: C)) := by
    rw [hassoc, hassoc]
    exact setItem_append _ C v w (hb' u)
  constructor
  · rw [swap, hfirst, hsecond]
    change setItem _ a y >>= (fun arr => setItem arr b x) = _
    rw [hsetFirst]
    exact hsetSecond y y x
  · rw [swap, hsecond, hfirst]
    change setItem _ b x >>= (fun arr => setItem arr a y) = _
    rw [hsetSecond]
    exact hsetFirst x x y

/-- An element and itself. -/
theorem swap_self (A C : List Int) (x : Int) {a : Int} (ha : a = A.length) :
    swap (A ++ x :: C) a a = .ok (A ++ x :: C) := by
  rw [swap, getItem_append A C x ha]
  change setItem _ a x >>= (fun arr => setItem arr a x) = _
  rw [setItem_append A C x x ha]
  exact setItem_append A C x x ha

/-- The middle element is swapped to the end. -/
theorem swap_last (A S B : List Int) {m : ℕ} (hm : m < S.length) {a b : Int}
    (ha : a = A.length + m) (hb : b = A.length + S.length - 1) :
    ∃ U p, swap (A ++ (S ++ B)) a b = .ok (A ++ (U ++ p :: B)) ∧ (U ++ [p]).Perm S := by
  obtain ⟨X, x, Y, rfl, hX⟩ : ∃ X x Y, S = X ++ x :: Y ∧ X.length = m := by
    refine ⟨S.take m, S[m], S.drop (m + 1), ?_, List.length_take_of_le (Nat.le_of_lt hm)⟩
    rw [List.getElem_cons_drop, List.take_append_drop]
  rw [List.length_append, List.length_cons] at hb
  rcases List.eq_nil_or_concat' Y with rfl | ⟨Z, y, rfl⟩
  -- The middle element is the last one, and is swapped with itself.
  · refine ⟨X, x, ?_, List.Perm.refl _⟩
    have hself := swap_self (A ++ X) B x (a := a) (by rw [List.length_append]; omega)
    rw [List.length_nil] at hb
    rw [show b = a by omega]
    simpa only [List.append_assoc, List.cons_append, List.nil_append] using hself
  · rw [List.length_append, List.length_singleton] at hb
    refine ⟨X ++ y :: Z, x, ?_, ?_⟩
    · have hswap := (swap_append (A ++ X) Z B x y (a := a) (b := b)
        (by rw [List.length_append]; omega) (by rw [List.length_append]; omega)).1
      simpa only [List.append_assoc, List.cons_append, List.nil_append] using hswap
    · rw [List.append_assoc]
      refine (List.Perm.refl X).append ?_
      have hmiddle : (y :: Z ++ [x]).Perm (x :: (y :: Z)) := List.perm_append_singleton x _
      exact hmiddle.trans ((List.perm_append_singleton y Z).symm.cons x)

/-- The element after the two groups goes between them. -/
theorem swap_groups (A L G rest : List Int) (x : Int) {i j : Int}
    (hi : i = A.length + L.length + G.length) (hj : j = A.length + L.length) :
    ∃ G', swap (A ++ (L ++ (G ++ x :: rest))) i j = .ok (A ++ (L ++ x :: (G' ++ rest))) ∧
      swap (A ++ (L ++ (G ++ x :: rest))) j i = .ok (A ++ (L ++ x :: (G' ++ rest))) ∧
      G'.Perm G := by
  cases G with
  | nil =>
      -- Both indices are the same.
      rw [List.length_nil] at hi
      have hself := swap_self (A ++ L) rest x (a := i) (by rw [List.length_append]; omega)
      rw [List.append_assoc] at hself
      rw [show j = i by omega]
      exact ⟨[], hself, hself, List.Perm.refl []⟩
  | cons g G =>
      rw [List.length_cons] at hi
      have hswap := swap_append (A ++ L) G rest g x (a := j) (b := i)
        (by rw [List.length_append]; omega) (by rw [List.length_append]; omega)
      simp only [List.append_assoc] at hswap
      -- The first element of the group goes to its end.
      refine ⟨G ++ [g], ?_, ?_, List.perm_append_singleton g G⟩
      · simpa only [List.append_assoc, List.cons_append, List.nil_append] using hswap.2
      · simpa only [List.append_assoc, List.cons_append, List.nil_append] using hswap.1

/-- An element and the pivot are read, and compared. -/
theorem compare_eq {arr : List Int} {i j r x p : Int} (hx : getItem arr i = .ok x)
    (hp : getItem arr r = .ok p) :
    compare r (arr, j) i =
      if x ≤ p then swap arr i j >>= fun arr => pure (arr, j + 1) else pure (arr, j) := by
  rw [compare, hx]
  change (getItem arr r >>= _) = _
  rw [hp]
  rfl

/-- The loop of `Partition`: the elements `L` are at most the pivot, `G` are larger, and `U` have
    not been looked at. -/
theorem foldlM_compare (A B : List Int) (p : Int) {L G U : List Int} (hL : ∀ x ∈ L, x ≤ p)
    (hG : ∀ x ∈ G, p < x) {i j r : Int} (hi : i = A.length + L.length + G.length)
    (hj : j = A.length + L.length) (hr : r = A.length + L.length + G.length + U.length) :
    ∃ L' G', (upTo i r).foldlM (compare r) (A ++ (L ++ (G ++ (U ++ p :: B))), j) =
        .ok (A ++ (L' ++ (G' ++ p :: B)), (A.length + L'.length : Int)) ∧
      (∀ x ∈ L', x ≤ p) ∧ (∀ x ∈ G', p < x) ∧ (L' ++ G').Perm (L ++ (G ++ U)) := by
  induction U generalizing L G i j with
  | nil =>
      rw [List.length_nil] at hr
      refine ⟨L, G, ?_, hL, hG, by rw [List.append_nil]⟩
      -- The pivot is next, and the loop is over.
      rw [upTo_of_le (by omega), hj]
      rfl
  | cons x U ih =>
      rw [List.length_cons] at hr
      rw [upTo_cons (by omega)]
      have hx : getItem (A ++ (L ++ (G ++ (x :: U ++ p :: B)))) i = .ok x := by
        have h := getItem_append (A ++ (L ++ G)) (U ++ p :: B) x (i := i)
          (by simp only [List.length_append]; omega)
        simpa only [List.append_assoc, List.cons_append] using h
      have hp : getItem (A ++ (L ++ (G ++ (x :: U ++ p :: B)))) r = .ok p := by
        have h := getItem_append (A ++ (L ++ (G ++ (x :: U)))) B p (i := r)
          (by simp only [List.length_append, List.length_cons]; omega)
        simpa only [List.append_assoc, List.cons_append] using h
      by_cases hxp : x ≤ p
      -- The element changes places with the first one of the second group.
      · rcases swap_groups A L G (U ++ p :: B) x hi hj with ⟨G', hswap, -, hperm⟩
        have hstep : compare r (A ++ (L ++ (G ++ (x :: U ++ p :: B))), j) i =
            .ok (A ++ ((L ++ [x]) ++ (G' ++ (U ++ p :: B))), j + 1) := by
          rw [compare_eq hx hp, if_pos hxp, List.cons_append, hswap, List.append_cons]
          rfl
        have hlen : G'.length = G.length := hperm.length_eq
        have hL' : ∀ y ∈ L ++ [x], y ≤ p := fun y hy => by
          rcases List.mem_append.mp hy with hy | hy
          · exact hL y hy
          · rwa [List.mem_singleton.mp hy]
        rw [foldlM_cons_ok hstep]
        rcases ih hL' (fun y hy => hG y (hperm.mem_iff.mp hy)) (i := i + 1) (j := j + 1)
          (by rw [List.length_append, List.length_singleton]; omega)
          (by rw [List.length_append, List.length_singleton]; omega)
          (by rw [List.length_append, List.length_singleton]; omega) with
          ⟨L', G'', hloop, hle, hgt, hall⟩
        refine ⟨L', G'', hloop, hle, hgt, hall.trans ?_⟩
        rw [List.append_assoc]
        refine (List.Perm.refl L).append ?_
        -- The element has passed the second group.
        exact ((hperm.append_right U).cons x).trans List.perm_middle.symm
      -- The element stays where it is, at the end of the second group.
      · have hstep : compare r (A ++ (L ++ (G ++ (x :: U ++ p :: B))), j) i =
            .ok (A ++ (L ++ ((G ++ [x]) ++ (U ++ p :: B))), j) := by
          rw [compare_eq hx hp, if_neg hxp]
          simp only [List.append_assoc, List.cons_append, List.nil_append]
          rfl
        have hG' : ∀ y ∈ G ++ [x], p < y := fun y hy => by
          rcases List.mem_append.mp hy with hy | hy
          · exact hG y hy
          · rw [List.mem_singleton.mp hy]
            exact Int.not_le.mp hxp
        rw [foldlM_cons_ok hstep]
        rcases ih hL hG' (i := i + 1) (by rw [List.length_append, List.length_singleton]; omega) hj
          (by rw [List.length_append, List.length_singleton]; omega) with
          ⟨L', G', hloop, hle, hgt, hall⟩
        refine ⟨L', G', hloop, hle, hgt, hall.trans ?_⟩
        rw [List.append_assoc, List.cons_append, List.nil_append]

/-- `Partition` puts the pivot where it belongs in its segment. -/
theorem partition_append (A S B : List Int) (hS : 2 ≤ S.length) {l r : Int} (hl : l = A.length)
    (hr : r = A.length + S.length - 1) :
    ∃ L p G, partition (A ++ (S ++ B)) l r =
        .ok (A ++ (L ++ p :: (G ++ B)), (A.length + L.length : Int)) ∧
      (∀ x ∈ L, x ≤ p) ∧ (∀ x ∈ G, p < x) ∧ (L ++ p :: G).Perm S := by
  -- The division truncates, and there is nothing negative here.
  have hmiddle : (r - l).tdiv 2 = ((S.length - 1) / 2 : ℕ) := by
    rw [Int.tdiv_eq_ediv_of_nonneg (by omega)]
    omega
  rcases swap_last A S B (show (S.length - 1) / 2 < S.length by omega) (a := l + (r - l).tdiv 2)
    (by rw [hmiddle, hl]) hr with ⟨U, p, hswap, hU⟩
  have hlen := hU.length_eq
  rw [List.length_append, List.length_singleton] at hlen
  rcases foldlM_compare A B p (L := []) (G := []) (U := U) (fun x hx => absurd hx List.not_mem_nil)
    (fun x hx => absurd hx List.not_mem_nil) (i := l) (j := l) (r := r)
    (by rw [List.length_nil]; omega) (by rw [List.length_nil]; omega)
    (by rw [List.length_nil]; omega) with ⟨L, G, hloop, hle, hgt, hall⟩
  have hall' : (L ++ G).length = U.length := hall.length_eq
  rw [List.length_append] at hall'
  rcases swap_groups A L G B p (i := r) (j := A.length + L.length) (by omega) rfl with
    ⟨G', -, hswap', hperm⟩
  refine ⟨L, p, G', ?_, hle, fun x hx => hgt x (hperm.mem_iff.mp hx), ?_⟩
  · rw [partition]
    rw [hswap]
    change ((upTo l r).foldlM (compare r) (_, l) >>= _) = _
    rw [List.nil_append, List.nil_append] at hloop
    rw [hloop]
    change (swap _ (A.length + L.length : Int) r >>= _) = _
    rw [hswap']
    rfl
  -- The segment is the pivot and the two groups.
  · calc
      List.Perm (L ++ p :: G') (p :: (L ++ G')) := List.perm_middle
      List.Perm _ (p :: (L ++ G)) := ((List.Perm.refl L).append hperm).cons p
      List.Perm _ (p :: U) := hall.cons p
      List.Perm _ (U ++ [p]) := (List.perm_append_singleton p U).symm
      List.Perm _ S := hU

/-! ### Sorting -/

theorem pairwise_append_pivot {L G : List Int} {p : Int} (hL : L.Pairwise (· ≤ ·))
    (hG : G.Pairwise (· ≤ ·)) (hle : ∀ x ∈ L, x ≤ p) (hgt : ∀ x ∈ G, p < x) :
    (L ++ p :: G).Pairwise (· ≤ ·) := by
  refine List.pairwise_append.mpr ⟨hL, List.pairwise_cons.mpr ⟨fun x hx => ?_, hG⟩,
    fun x hx y hy => ?_⟩
  · exact Int.le_of_lt (hgt x hx)
  · rcases List.mem_cons.mp hy with rfl | hy
    · exact hle x hx
    · exact (hle x hx).trans (Int.le_of_lt (hgt y hy))

/-- The segment ends up sorted, and what stands around it stays. The two segments beside the pivot
    are shorter, and may be empty. -/
theorem quickSort_append {A S B : List Int} {l r : Int} (hl : l = A.length)
    (hr : r = A.length + S.length - 1) :
    ∃ S', S'.Pairwise (· ≤ ·) ∧ S'.Perm S ∧ ∀ fuel, S.length < fuel →
      Returns (quickSort fuel (A ++ (S ++ B)) l r) (A ++ (S' ++ B)) := by
  induction hn : S.length using Nat.strongRecOn generalizing A S B l r with
  | ind n ih =>
      by_cases hS : 2 ≤ S.length
      · rcases partition_append A S B hS hl hr with ⟨L, p, G, hpart, hle, hgt, hperm⟩
        have hlen := hperm.length_eq
        rw [List.length_append, List.length_cons] at hlen
        rcases ih L.length (by omega) (A := A) (S := L) (B := p :: (G ++ B)) hl
          (r := A.length + L.length - 1) rfl rfl with ⟨L', hL', hpermL, hretL⟩
        have hlenL := hpermL.length_eq
        -- What is on the left of the pivot has been sorted by then.
        rcases ih G.length (by omega) (A := A ++ (L' ++ [p])) (S := G) (B := B)
          (l := A.length + L.length + 1) (r := r)
          (by rw [List.length_append, List.length_append, List.length_singleton]; omega)
          (by rw [List.length_append, List.length_append, List.length_singleton]; omega) rfl with
          ⟨G', hG', hpermG, hretG⟩
        refine ⟨L' ++ p :: G', ?_, (hpermL.append (hpermG.cons p)).trans hperm,
          forall_lt_of_succ (fun fuel hfuel => ?_)⟩
        · exact pairwise_append_pivot hL' hG' (fun x hx => hle x (hpermL.mem_iff.mp hx))
            (fun x hx => hgt x (hpermG.mem_iff.mp hx))
        · rw [quickSort, if_neg (by omega)]
          refine (Returns.lift hpart).bind ((hretL fuel (by omega)).bind ?_)
          simpa only [List.append_assoc, List.cons_append, List.nil_append] using
            hretG fuel (by omega)
      -- At most one element is sorted.
      · refine ⟨S, ?_, List.Perm.refl S, forall_lt_of_succ (fun fuel _ => ?_)⟩
        · rcases S with _ | ⟨x, _ | ⟨y, S⟩⟩
          · exact .nil
          · exact List.pairwise_singleton _ x
          · exact absurd (by rw [List.length_cons, List.length_cons]; omega) hS
        · rw [quickSort, if_pos (by omega)]
          exact .pure _

/-- Everything before an index, the segment that begins there, and what comes after it. -/
theorem exists_segment {arr : List Int} {l r : Int} (hl : 0 ≤ l) (hlr : l ≤ r)
    (hr : r < arr.length) :
    ∃ A S B, arr = A ++ (S ++ B) ∧ l = A.length ∧ r = A.length + S.length - 1 := by
  refine ⟨arr.take l.toNat, segment arr l r, (arr.drop l.toNat).drop (r - l + 1).toNat, ?_, ?_, ?_⟩
  · rw [segment, List.take_append_drop, List.take_append_drop]
  · rw [List.length_take]
    omega
  · rw [segment, List.length_take, List.length_take, List.length_drop]
    omega

theorem segment_append (A S B : List Int) {l r : Int} (hl : l = A.length)
    (hr : r = A.length + S.length - 1) : segment (A ++ (S ++ B)) l r = S := by
  have hlen : (r - A.length + 1).toNat = S.length := by omega
  rw [segment, hl, Int.toNat_natCast, List.drop_left, hlen, List.take_left]

/-- What stands around the segment is where it was. -/
theorem getElem?_outside (A B : List Int) {S S' : List Int} (hS : S'.length = S.length) {i : ℕ}
    (hi : i < A.length ∨ A.length + S.length ≤ i) : (A ++ (S' ++ B))[i]? = (A ++ (S ++ B))[i]? := by
  rcases hi with hi | hi
  · rw [List.getElem?_append_left hi, List.getElem?_append_left hi]
  · rw [List.getElem?_append_right (by omega), List.getElem?_append_right (by omega),
      List.getElem?_append_right (by omega), List.getElem?_append_right (by omega), hS]

/-- `QuickSort` of a segment of the array, or of an empty one, ends with the segment sorted and
    everything outside of it unchanged. -/
theorem quickSort_correct (arr : List Int) {l r : Int} (h : 0 ≤ l ∧ r < arr.length ∨ r < l) :
    ∃ res, Terminates (fun fuel => quickSort fuel arr l r) res ∧ res.length = arr.length ∧
      (segment res l r).Pairwise (· ≤ ·) ∧ (segment res l r).Perm (segment arr l r) ∧
      ∀ i : ℕ, (i : Int) < l ∨ r < i → res[i]? = arr[i]? := by
  by_cases hlr : l ≤ r
  · rcases h with ⟨hl, hr⟩ | hlt
    -- The array is cut at the ends of the segment.
    · rcases exists_segment hl hlr hr with ⟨A, S, B, rfl, hl, hr⟩
      rcases quickSort_append (B := B) hl hr with ⟨S', hsorted, hperm, hret⟩
      have hlen := hperm.length_eq
      rw [← hlen] at hr
      have hseg := segment_append A S' B hl hr
      rw [hlen] at hr
      refine ⟨A ++ (S' ++ B), ⟨S.length, hret⟩, ?_, ?_, ?_, fun i hi => ?_⟩
      · simp only [List.length_append, hlen]
      · rwa [hseg]
      · rwa [hseg, segment_append A S B hl hr]
      · exact getElem?_outside A B hlen (by omega)
    · exact absurd hlt (Int.not_lt.mpr hlr)
  -- The call returns at once.
  · have hempty : segment arr l r = [] := by
      rw [segment, show (r - l + 1).toNat = 0 by omega, List.take_zero]
    refine ⟨arr, ⟨0, forall_lt_of_succ (fun fuel _ => ?_)⟩, rfl, ?_, List.Perm.refl _,
      fun i _ => rfl⟩
    · change Returns (quickSort (fuel + 1) arr l r) arr
      rw [quickSort, if_pos (by omega)]
      exact .pure arr
    · rw [hempty]
      exact .nil

/-- The array of the sample. -/
theorem quickSort_correct_sample : ∃ res,
    Terminates (fun fuel => quickSort fuel [3, 5, 1, 2, 3, 5, 7, 19, 8, 100, -1] 0 10) res ∧
      res.length = [3, 5, 1, 2, 3, 5, 7, 19, 8, 100, -1].length ∧
      (segment res 0 10).Pairwise (· ≤ ·) ∧
      (segment res 0 10).Perm (segment [3, 5, 1, 2, 3, 5, 7, 19, 8, 100, -1] 0 10) ∧
      ∀ i : ℕ, (i : Int) < 0 ∨ 10 < (i : Int) →
        res[i]? = [3, 5, 1, 2, 3, 5, 7, 19, 8, 100, -1][i]? :=
  quickSort_correct _ (.inl (by decide))

end QuickSortSample

end BlogSample
