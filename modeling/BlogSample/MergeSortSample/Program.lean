import BlogSample.ListObjects
import BlogSample.Theory.Fuel

/-!
# Merge Sort

`MergeSort` and `Merge` of the merge sort sample, on lists as objects. `Merge`
takes elements out of the lists that it is given, and `MergeSort` returns its
own argument if that is short. The list of the caller is not one of those that
are consumed, since each call sorts two lists of its own and merges what comes
back.

What comes back from a call is the argument or a list that was made in the
call. So of the lists that were there before, a call changes none, and the two
results that are merged are two different lists.

## Main definitions

* `mergeSort`, `merge`: The two functions.
* `Keeps`: The lists that were there are as they were.

## Theorems

* `takeSmaller_loop`: The loop of `Merge`.
* `merge_returns`: What `Merge` returns, and which lists it changes.
* `mergeSort_returns`: What `MergeSort` returns, and which lists it keeps.
* `mergeSort_correct`: A sorted permutation, and the argument as it was.
-/

namespace BlogSample

namespace MergeSortSample

open DotNet Fuel

/-- The body of the first loop of `Merge`. -/
def takeSmaller (left right result : ℕ) (h : ListHeap Int) : Except Exn (ListHeap Int) := do
  let x ← h.item left 0
  let y ← h.item right 0
  if x ≥ y then (h.add result y).removeAt right 0 else (h.add result x).removeAt left 0

/-- `Merge(left, right)`: the result, and the lists after it. -/
def merge (fuel : ℕ) (h : ListHeap Int) (left right : ℕ) : Call Exn (ℕ × ListHeap Int) := do
  let (result, h) := h.new
  let h ← whileLoop (fun h => h.count left > 0 && h.count right > 0)
    (fun h => liftM (takeSmaller left right result h)) fuel h
  let h ← h.addFrom left result 0 (h.count left)
  let h ← h.addFrom right result 0 (h.count right)
  pure (result, h)

/-- `MergeSort(arr)`: the result, and the lists after it. -/
def mergeSort : ℕ → ListHeap Int → ℕ → Call Exn (ℕ × ListHeap Int)
  | 0, _, _ => outOfFuel
  | fuel + 1, h, arr =>
      -- A short list is returned itself, not a copy of it.
      if h.count arr ≤ 1 then pure (arr, h)
      else do
        let (right, h) := h.new
        let (left, h) := h.new
        let mid := (h.count arr).tdiv 2
        let h ← h.addFrom arr right 0 mid
        let h ← h.addFrom arr left mid (h.count arr)
        let (left, h) ← mergeSort fuel h left
        let (right, h) ← mergeSort fuel h right
        merge fuel h left right

/-- The first lists are as they were, and no list is gone. -/
structure Keeps (n : ℕ) (h h' : ListHeap Int) : Prop where
  length : h.length ≤ h'.length
  elements : ∀ ref < n, h'.elements ref = h.elements ref

theorem Keeps.trans {n : ℕ} {h h' h'' : ListHeap Int} (hk : Keeps n h h') (hk' : Keeps n h' h'') :
    Keeps n h h'' where
  length := hk.length.trans hk'.length
  elements := fun ref href => (hk'.elements ref href).trans (hk.elements ref href)

theorem Keeps.mono {n m : ℕ} {h h' : ListHeap Int} (hk : Keeps n h h') (hm : m ≤ n) :
    Keeps m h h' where
  length := hk.length
  elements := fun ref href => hk.elements ref (href.trans_le hm)

/-- A new list is none of those that were there. -/
theorem Keeps.new (h : ListHeap Int) : Keeps h.length h h.new.2 where
  length := by
    rw [ListHeap.length_new]
    exact Nat.le_succ _
  elements := fun _ href => ListHeap.elements_new_of_lt href

theorem Keeps.set {n ref : ℕ} (h : ListHeap Int) (href : n ≤ ref) (xs : List Int) :
    Keeps n h (h.set ref xs) where
  length := by rw [List.length_set]
  elements := fun _ hlt => ListHeap.elements_set_of_ne (by omega) xs

/-! ### Merging -/

/-- Where two lists are merged, the right one goes first among equal elements. -/
def merged (left right : List Int) : List Int :=
  right.merge left

theorem merged_cons (x y : Int) (left right : List Int) :
    merged (x :: left) (y :: right) =
      if x ≥ y then y :: merged (x :: left) right else x :: merged left (y :: right) := by
  unfold merged
  rw [List.merge]
  by_cases hle : x ≥ y
  · rw [if_pos hle, if_pos (decide_eq_true hle)]
  · rw [if_neg hle, if_neg (by rwa [decide_eq_true_eq])]

theorem merged_perm (left right : List Int) : (merged left right).Perm (left ++ right) :=
  (List.merge_perm_append _).trans List.perm_append_comm

theorem merged_sorted {left right : List Int} (hleft : left.Pairwise (· ≤ ·))
    (hright : right.Pairwise (· ≤ ·)) : (merged left right).Pairwise (· ≤ ·) := by
  have htrans (a b c : Int) (hab : decide (a ≤ b) = true) (hbc : decide (b ≤ c) = true) :
      decide (a ≤ c) = true := by
    rw [decide_eq_true_eq] at hab hbc ⊢
    exact hab.trans hbc
  have htotal (a b : Int) : (decide (a ≤ b) || decide (b ≤ a)) = true := by
    rw [Bool.or_eq_true, decide_eq_true_eq, decide_eq_true_eq]
    exact Int.le_total a b
  have hsorted := List.pairwise_merge htrans htotal right left
    (hright.imp (fun h => decide_eq_true h)) (hleft.imp (fun h => decide_eq_true h))
  exact hsorted.imp (fun h => of_decide_eq_true h)

/-- What the loop of `Merge` works on: three different lists, and the others as they were. -/
structure Merging (h₀ : ListHeap Int) (left right result : ℕ) (total : List Int)
    (h : ListHeap Int) : Prop where
  length : h.length = h₀.length
  others : ∀ ref, ref ≠ left → ref ≠ right → ref ≠ result → h.elements ref = h₀.elements ref
  total : h.elements result ++ merged (h.elements left) (h.elements right) = total

section

variable {h₀ h : ListHeap Int} {left right result : ℕ} {total : List Int}
  (hleft : left < h₀.length) (hright : right < h₀.length) (hresult : result < h₀.length)
  (hlr : left ≠ right) (hlres : left ≠ result) (hrres : right ≠ result)

include hleft hright hresult hlr hlres hrres

/-- A round moves the smaller one of the two first elements. -/
theorem takeSmaller_merging (hm : Merging h₀ left right result total h) {x y : Int}
    {xs ys : List Int} (hx : h.elements left = x :: xs) (hy : h.elements right = y :: ys) :
    ∃ h', takeSmaller left right result h = .ok h' ∧ Merging h₀ left right result total h' ∧
      (h'.elements left).length + (h'.elements right).length =
        (h.elements left).length + (h.elements right).length - 1 := by
  -- Both lists have a first element, so neither `item` throws.
  have hitems : takeSmaller left right result h =
      if x ≥ y then (h.add result y).removeAt right 0 else (h.add result x).removeAt left 0 := by
    have hx0 : h.item left 0 = .ok x := ListHeap.item_append (A := []) hx rfl
    have hy0 : h.item right 0 = .ok y := ListHeap.item_append (A := []) hy rfl
    rw [takeSmaller, hx0, hy0]
    rfl
  have htotal := hm.total
  rw [hx, hy, merged_cons] at htotal
  have hlen := hm.length
  by_cases hle : x ≥ y
  -- The first element of the right list is taken, also if the two are equal.
  · rw [if_pos hle] at htotal hitems
    rcases ListHeap.moveFirst_eq hrres (by omega) (by omega) hy with
      ⟨h', hmove, hlen', hright', hresult', hothers⟩
    have hleft' := hothers left hlr hlres
    refine ⟨h', hitems.trans hmove, ⟨hlen'.trans hlen, fun ref hrl hrr hrres' => ?_, ?_⟩, ?_⟩
    · rw [hothers ref hrr hrres', hm.others ref hrl hrr hrres']
    · rw [hleft', hright', hresult', hx, List.append_assoc]
      exact htotal
    · rw [hleft', hright', hx, hy, List.length_cons, List.length_cons]
      omega
  · rw [if_neg hle] at htotal hitems
    rcases ListHeap.moveFirst_eq hlres (by omega) (by omega) hx with
      ⟨h', hmove, hlen', hleft', hresult', hothers⟩
    have hright' := hothers right hlr.symm hrres
    refine ⟨h', hitems.trans hmove, ⟨hlen'.trans hlen, fun ref hrl hrr hrres' => ?_, ?_⟩, ?_⟩
    · rw [hothers ref hrl hrres', hm.others ref hrl hrr hrres']
    · rw [hleft', hright', hresult', hy, List.append_assoc]
      exact htotal
    · rw [hleft', hright', hx, hy, List.length_cons, List.length_cons]
      omega

/-- The loop ends with one of the two lists empty. -/
theorem takeSmaller_loop (hm : Merging h₀ left right result total h) :
    ∃ h', Merging h₀ left right result total h' ∧
      (h'.elements left = [] ∨ h'.elements right = []) ∧
      ∀ fuel, (h.elements left).length + (h.elements right).length < fuel →
        Returns (whileLoop (fun h => h.count left > 0 && h.count right > 0)
          (fun h => (liftM (takeSmaller left right result h) : Call Exn (ListHeap Int))) fuel h)
          h' := by
  -- A round takes one element away from one of the lists.
  have hround (s : ListHeap Int) (hs : Merging h₀ left right result total s)
      (hcond : (decide (s.count left > 0) && decide (s.count right > 0)) = true) :
      ∃ t, Returns (liftM (takeSmaller left right result s) : Call Exn (ListHeap Int)) t ∧
        Merging h₀ left right result total t ∧
        (t.elements left).length + (t.elements right).length <
          (s.elements left).length + (s.elements right).length := by
    rw [Bool.and_eq_true, decide_eq_true_eq, decide_eq_true_eq, ListHeap.count,
      ListHeap.count] at hcond
    rcases List.exists_cons_of_length_pos (Int.natCast_pos.mp hcond.1) with ⟨x, xs, hx⟩
    rcases List.exists_cons_of_length_pos (Int.natCast_pos.mp hcond.2) with ⟨y, ys, hy⟩
    rcases takeSmaller_merging hleft hright hresult hlr hlres hrres hs hx hy with
      ⟨t, ht, hmt, hlen⟩
    exact ⟨t, .lift ht, hmt, by omega⟩
  rcases whileLoop_returns (Merging h₀ left right result total)
    (fun s => (s.elements left).length + (s.elements right).length) hround hm with
    ⟨h', hm', hend, hret⟩
  refine ⟨h', hm', ?_, hret⟩
  rw [Bool.and_eq_false_iff, decide_eq_false_iff_not, decide_eq_false_iff_not, ListHeap.count,
    ListHeap.count] at hend
  rcases hend with hend | hend
  · exact .inl (List.eq_nil_of_length_eq_zero (by omega))
  · exact .inr (List.eq_nil_of_length_eq_zero (by omega))

end

/-- What is left in the lists after the loop is added in order. -/
theorem append_merged {acc left right : List Int} (h : left = [] ∨ right = []) :
    acc ++ left ++ right = acc ++ merged left right := by
  rcases h with rfl | rfl
  · rw [List.append_nil, merged, List.merge_right]
  · rw [List.append_nil, merged, List.nil_merge]

/-- `Merge` of two different lists makes a third one and changes no others. -/
theorem merge_returns {h : ListHeap Int} {left right : ℕ} (hleft : left < h.length)
    (hright : right < h.length) (hlr : left ≠ right) :
    ∃ h', (∀ fuel, (h.elements left).length + (h.elements right).length < fuel →
        Returns (merge fuel h left right) (h.length, h')) ∧
      h'.length = h.length + 1 ∧
      h'.elements h.length = merged (h.elements left) (h.elements right) ∧
      ∀ ref < h.length, ref ≠ left → ref ≠ right → h'.elements ref = h.elements ref := by
  have hlen := ListHeap.length_new h
  have hl := ListHeap.elements_new_of_lt hleft
  have hr := ListHeap.elements_new_of_lt hright
  have hstart : Merging h.new.2 left right h.length
      (merged (h.elements left) (h.elements right)) h.new.2 :=
    ⟨rfl, fun _ _ _ _ => rfl, by rw [ListHeap.elements_new_self, hl, hr, List.nil_append]⟩
  rcases takeSmaller_loop (by omega) (by omega) (by omega) hlr (Nat.ne_of_lt hleft)
    (Nat.ne_of_lt hright) hstart with ⟨h₁, hm, hend, hloop⟩
  rw [hl, hr] at hloop
  have hlen₁ := hm.length
  have hlres : left ≠ h.length := Nat.ne_of_lt hleft
  have hrres : right ≠ h.length := Nat.ne_of_lt hright
  -- The two loops after it.
  have hfirst : h₁.addFrom left h.length 0 (h₁.count left) =
      .ok (h₁.set h.length (h₁.elements h.length ++ h₁.elements left)) :=
    ListHeap.addFrom_all hlres (by omega)
  have hlen₂ : (h₁.set h.length (h₁.elements h.length ++ h₁.elements left)).length =
      h.length + 1 := by rw [List.length_set, hlen₁, hlen]
  have hsecond := ListHeap.addFrom_all
    (h := h₁.set h.length (h₁.elements h.length ++ h₁.elements left)) hrres
    (hlen₂ ▸ Nat.lt_succ_self _)
  rw [ListHeap.elements_set_of_ne hrres, ListHeap.elements_set_self (by omega), List.set_set]
    at hsecond
  refine ⟨h₁.set h.length (h₁.elements h.length ++ h₁.elements left ++ h₁.elements right),
    fun fuel hfuel => ?_, ?_, ?_, fun ref href hrl hrr => ?_⟩
  · exact (hloop fuel hfuel).bind ((Returns.lift hfirst).bind ((Returns.lift hsecond).bind
      (.pure _)))
  · rw [List.length_set, hlen₁, hlen]
  · rw [ListHeap.elements_set_self (by omega), append_merged hend]
    exact hm.total
  · rw [ListHeap.elements_set_of_ne (Nat.ne_of_lt href),
      hm.others ref hrl hrr (Nat.ne_of_lt href), ListHeap.elements_new_of_lt href]

/-! ### Sorting -/

/-- A call has sorted a list: the result is the list itself or a new one, and the lists that were
    there are as they were. -/
structure Sorted (h : ListHeap Int) (arr : ℕ) (res : ℕ × ListHeap Int) : Prop where
  keeps : Keeps h.length h res.2
  ref : res.1 = arr ∨ h.length ≤ res.1
  lt : res.1 < res.2.length
  sorted : (res.2.elements res.1).Pairwise (· ≤ ·)
  perm : (res.2.elements res.1).Perm (h.elements arr)

/-- The two lists of a call, with the first half of the elements in the one and the rest in the
    other. -/
theorem halves {h : ListHeap Int} {arr : ℕ} (harr : arr < h.length) :
    ∃ h₁ h₂, (h.new.2.new.2).addFrom arr h.length 0
        ((h.new.2.new.2.count arr).tdiv 2) = .ok h₁ ∧
      h₁.addFrom arr (h.length + 1) ((h.new.2.new.2.count arr).tdiv 2) (h₁.count arr) = .ok h₂ ∧
      h₂.length = h.length + 2 ∧ Keeps h.length h h₂ ∧
      h₂.elements h.length = (h.elements arr).take ((h.elements arr).length / 2) ∧
      h₂.elements (h.length + 1) = (h.elements arr).drop ((h.elements arr).length / 2) := by
  have hlen : h.new.2.length = h.length + 1 := ListHeap.length_new h
  have hlen' : h.new.2.new.2.length = h.length + 2 := by rw [ListHeap.length_new, hlen]
  have hsource : h.new.2.new.2.elements arr = h.elements arr := by
    rw [ListHeap.elements_new_of_lt (by omega), ListHeap.elements_new_of_lt harr]
  have hright : h.new.2.new.2.elements h.length = [] := by
    rw [ListHeap.elements_new_of_lt (by omega), ListHeap.elements_new_self]
  have hleft : h.new.2.new.2.elements (h.length + 1) = [] := by
    rw [← hlen, ListHeap.elements_new_self]
  have hcount : h.new.2.new.2.count arr = (h.elements arr).length := by rw [ListHeap.count, hsource]
  have hmid : (h.new.2.new.2.count arr).tdiv 2 = ((h.elements arr).length / 2 : ℕ) := by
    rw [hcount]
    rfl
  generalize hm : (h.elements arr).length / 2 = m at hmid ⊢
  have htake : ((h.elements arr).take m).length = m := by
    rw [List.length_take]
    omega
  have hdrop : ((h.elements arr).drop m).length = (h.elements arr).length - m := List.length_drop
  -- The first loop adds to the new list what stands before the middle.
  have hfirst : (h.new.2.new.2).addFrom arr h.length 0 ((h.new.2.new.2.count arr).tdiv 2) =
      .ok (h.new.2.new.2.set h.length ((h.elements arr).take m)) := by
    have hadd : (h.new.2.new.2).addFrom arr h.length 0 ((h.new.2.new.2.count arr).tdiv 2) =
        .ok (h.new.2.new.2.set h.length
          (h.new.2.new.2.elements h.length ++ (h.elements arr).take m)) :=
      ListHeap.addFrom_eq (Nat.ne_of_lt harr) (A := []) (C := (h.elements arr).drop m) rfl
        (by rw [hmid, htake, List.length_nil]; omega) (by omega)
        (by rw [hsource, List.nil_append, List.take_append_drop])
    rwa [hright, List.nil_append] at hadd
  have hsource' : ListHeap.elements (h.new.2.new.2.set h.length ((h.elements arr).take m)) arr =
      h.elements arr := by
    rw [ListHeap.elements_set_of_ne (Nat.ne_of_lt harr), hsource]
  -- The second one goes on from there, in the list that is still the same.
  refine ⟨_, _, hfirst, ListHeap.addFrom_eq (by omega) (A := (h.elements arr).take m)
      (B := (h.elements arr).drop m) (C := []) (by rw [hmid, htake])
      (by rw [ListHeap.count, hsource', htake, hdrop]; omega) (by rw [List.length_set]; omega)
      (by rw [hsource', List.append_nil, List.take_append_drop]), ?_, ?_, ?_, ?_⟩
  · rw [List.length_set, List.length_set, hlen']
  · have hnew : Keeps h.length h h.new.2.new.2 :=
      (Keeps.new h).trans ((Keeps.new h.new.2).mono (by omega))
    exact hnew.trans ((Keeps.set _ (Nat.le_refl _) _).trans (Keeps.set _ (by omega) _))
  · rw [ListHeap.elements_set_of_ne (by omega), ListHeap.elements_set_self (by omega)]
  · rw [ListHeap.elements_set_self (by rw [List.length_set]; omega),
      ListHeap.elements_set_of_ne (by omega), hleft, List.nil_append]

/-- Two halves that have been sorted, one after the other, are merged. -/
theorem Sorted.merged {h h₂ h₃ h₄ : ListHeap Int} {arr left right : ℕ}
    (hlen : h₂.length = h.length + 2) (hkeeps : Keeps h.length h h₂)
    (hhalves : (h₂.elements h.length ++ h₂.elements (h.length + 1)).Perm (h.elements arr))
    (hl : Sorted h₂ (h.length + 1) (left, h₃)) (hr : Sorted h₃ h.length (right, h₄)) :
    ∃ res, (∀ fuel, (h.elements arr).length < fuel → Returns (merge fuel h₄ left right) res) ∧
      Sorted h arr res := by
  have hlref : left = h.length + 1 ∨ h₂.length ≤ left := hl.ref
  have hrref : right = h.length ∨ h₃.length ≤ right := hr.ref
  have hllt : left < h₃.length := hl.lt
  have hrlt : right < h₄.length := hr.lt
  have hlen₃ : h₂.length ≤ h₃.length := hl.keeps.length
  have hlen₄ : h₃.length ≤ h₄.length := hr.keeps.length
  -- The second call has left the first result alone.
  have hleft : h₄.elements left = h₃.elements left := hr.keeps.elements left hllt
  have hright : h₃.elements h.length = h₂.elements h.length :=
    hl.keeps.elements h.length (by omega)
  rcases @merge_returns h₄ left right (by omega) hrlt (by omega) with
    ⟨h', hret, hlen', hmerged, hothers⟩
  have hpermL : (h₄.elements left).Perm (h₂.elements (h.length + 1)) := by
    rw [hleft]
    exact hl.perm
  have hpermR : (h₄.elements right).Perm (h₂.elements h.length) := by
    rw [← hright]
    exact hr.perm
  have hperm : (h₄.elements left ++ h₄.elements right).Perm (h.elements arr) :=
    ((hpermL.append hpermR).trans List.perm_append_comm).trans hhalves
  have hsum := hperm.length_eq
  rw [List.length_append] at hsum
  have hlt : h₄.length < h'.length := by omega
  refine ⟨(h₄.length, h'), fun fuel hfuel => hret fuel (by omega), ?_, .inr (by omega), hlt,
    ?_, ?_⟩
  · have hall : Keeps h.length h h₄ :=
      (hkeeps.trans (hl.keeps.mono (by omega))).trans (hr.keeps.mono (by omega))
    refine hall.trans ⟨hlt.le, fun ref href => hothers ref (by omega) ?_ ?_⟩
    · omega
    · omega
  · rw [hmerged]
    refine merged_sorted ?_ hr.sorted
    rw [hleft]
    exact hl.sorted
  · rw [hmerged]
    exact (merged_perm _ _).trans hperm

/-- A call sorts, with fuel for the elements of the list. -/
theorem mergeSort_returns {h : ListHeap Int} {arr : ℕ} (harr : arr < h.length) :
    ∃ res, (∀ fuel, (h.elements arr).length + 1 < fuel → Returns (mergeSort fuel h arr) res) ∧
      Sorted h arr res := by
  induction hn : (h.elements arr).length using Nat.strongRecOn generalizing h arr with
  | ind n ih =>
      have hcount : h.count arr = n := by rw [ListHeap.count, hn]
      by_cases hshort : h.count arr ≤ 1
      -- The argument itself comes back, and is sorted.
      · refine ⟨(arr, h), forall_lt_of_succ (fun fuel _ => ?_), ⟨Nat.le_refl _, fun _ _ => rfl⟩,
          .inl rfl, harr, ?_, List.Perm.refl _⟩
        · rw [mergeSort, if_pos hshort]
          exact .pure _
        · rcases hlist : h.elements arr with _ | ⟨x, _ | ⟨y, xs⟩⟩
          · exact .nil
          · exact List.pairwise_singleton _ x
          · rw [hlist, List.length_cons, List.length_cons] at hn
            omega
      · rcases halves harr with ⟨h₁, h₂, hfirst, hsecond, hlen, hkeeps, hright, hleft⟩
        -- Both halves are shorter than the list.
        have hlenR : (h₂.elements h.length).length = n / 2 := by
          rw [hright, List.length_take, hn]
          omega
        have hlenL : (h₂.elements (h.length + 1)).length = n - n / 2 := by
          rw [hleft, List.length_drop, hn]
        rcases @ih (n - n / 2) (by omega) h₂ (h.length + 1) (by omega) hlenL with
          ⟨⟨left, h₃⟩, hretL, hsortL⟩
        have hlen₃ : h₂.length ≤ h₃.length := hsortL.keeps.length
        have hlenR' : (h₃.elements h.length).length = n / 2 := by
          rw [hsortL.keeps.elements h.length (by omega), hlenR]
        rcases @ih (n / 2) (by omega) h₃ h.length (by omega) hlenR' with
          ⟨⟨right, h₄⟩, hretR, hsortR⟩
        have hhalves : (h₂.elements h.length ++ h₂.elements (h.length + 1)).Perm
            (h.elements arr) := by
          rw [hright, hleft, List.take_append_drop]
        rcases Sorted.merged hlen hkeeps hhalves hsortL hsortR with ⟨res, hret, hres⟩
        refine ⟨res, ?_, hres⟩
        rw [hn] at hret
        -- The second list is the one made after the first one.
        rw [← ListHeap.length_new h] at hsecond hretL
        refine forall_lt_of_succ (fun fuel hfuel => ?_)
        rw [mergeSort, if_neg hshort]
        exact (Returns.lift hfirst).bind ((Returns.lift hsecond).bind
          ((hretL fuel (by omega)).bind ((hretR fuel (by omega)).bind (hret fuel (by omega)))))

/-- `MergeSort` returns, and what it returns is its argument in order. The argument is left as it
    was, and so are the other lists that were there. -/
theorem mergeSort_correct (h : ListHeap Int) (arr : ℕ) (harr : arr < h.length) :
    ∃ res h', Terminates (fun fuel => mergeSort fuel h arr) (res, h') ∧
      (h'.elements res).Pairwise (· ≤ ·) ∧ (h'.elements res).Perm (h.elements arr) ∧
      h'.elements arr = h.elements arr ∧ ∀ ref < h.length, h'.elements ref = h.elements ref := by
  rcases mergeSort_returns harr with ⟨⟨res, h'⟩, hret, hsorted⟩
  exact ⟨res, h', ⟨_, hret⟩, hsorted.sorted, hsorted.perm, hsorted.keeps.elements arr harr,
    hsorted.keeps.elements⟩

/-- The list that the sample sorts. -/
theorem mergeSort_correct_sample :
    ∃ res h', Terminates (fun fuel => mergeSort fuel [[5, 3, 2, 1, 56, 7, 4, 2]] 0) (res, h') ∧
      (h'.elements res).Pairwise (· ≤ ·) ∧
      (h'.elements res).Perm [5, 3, 2, 1, 56, 7, 4, 2] ∧
      h'.elements 0 = [5, 3, 2, 1, 56, 7, 4, 2] :=
  have ⟨res, h', hterm, hsorted, hperm, hkept, _⟩ :=
    mergeSort_correct [[5, 3, 2, 1, 56, 7, 4, 2]] 0 (by decide)
  ⟨res, h', hterm, hsorted, hperm, hkept⟩

end MergeSortSample

end BlogSample
