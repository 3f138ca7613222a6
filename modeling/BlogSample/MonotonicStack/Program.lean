import BlogSample.DotNet
import BlogSample.Theory.Fuel
import BlogSample.Theory.NextSmaller
import Mathlib.Data.List.GetD
import Mathlib.Order.Bounds.Basic

/-!
# The Next Smaller Value on the Right

`FindRightSamll` of the monotonic stack sample. The stack holds the positions
for which there is no answer yet. A value is the answer for those on top of the
stack that have a larger one, and at the end there is none for those that are
left.

Next to the array that is filled stands a record of where it has been written,
in the order of the assignments, of which the code has no notion.

## Main definitions

* `Search`: The array of the result, the stack, and where has been written.
* `popWhile`: The two loops that take positions off the stack.
* `findRightSamll`: The function.
* `smallerRight`: The positions on the right with a smaller value.
* `Scanned`: What the loop over the array keeps.

## Theorems

* `popWhile_returns`: A loop writes what it takes off.
* `Scanned.round`: One round of the loop over the array.
* `findRightSamll_returns`: The array that is returned.
* `findRightSamll_correct`: It holds the first smaller values, each written once.
-/

namespace BlogSample

namespace MonotonicStack

open DotNet Fuel NextSmaller

/-- `res`, `stack` with its top first, and the positions that `res` was written at. -/
structure Search where
  res : List Int
  stack : List ℕ
  written : List ℕ

/-- `stack.Peek()`. -/
def peek : List ℕ → Except Exn ℕ
  | [] => throw .invalidOperation
  | k :: _ => pure k

/-- `stack.Pop()`. -/
def pop : List ℕ → Except Exn (ℕ × List ℕ)
  | [] => throw .invalidOperation
  | k :: stack => pure (k, stack)

/-- `res[stack.Pop()] = value`. -/
def assignPopped (value : Except Exn Int) (s : Search) : Except Exn Search := do
  let (k, stack) ← pop s.stack
  let x ← value
  let res ← setItem s.res k x
  pure { res := res, stack := stack, written := s.written ++ [k] }

/-- `while (cond) res[stack.Pop()] = value`. -/
def popWhile (cond : Search → Except Exn Bool) (value : Except Exn Int) :
    ℕ → Search → Call Exn Search
  | 0, _ => outOfFuel
  | fuel + 1, s => do
      let go ← cond s
      if go then
        let s ← assignPopped value s
        popWhile cond value fuel s
      else pure s

/-- `stack.Count > 0 && arr[i] < arr[stack.Peek()]`. -/
def smallerThanTop (arr : List Int) (i : ℕ) (s : Search) : Except Exn Bool :=
  if s.stack.length > 0 then do
    let x ← getItem arr i
    let top ← peek s.stack
    let y ← getItem arr top
    pure (decide (x < y))
  else pure false

/-- One round of the loop over the array. -/
def scan (fuel : ℕ) (arr : List Int) (s : Search) (i : ℕ) : Call Exn Search := do
  let s ← popWhile (smallerThanTop arr i) (getItem arr i) fuel s
  pure { s with stack := i :: s.stack }

/-- `FindRightSamll(arr)`: the result, and where it was written. -/
def findRightSamll (fuel : ℕ) (arr : List Int) : Call Exn (List Int × List ℕ) := do
  let s ← (List.range arr.length).foldlM (scan fuel arr)
    { res := List.replicate arr.length 0, stack := [], written := [] }
  let s ← popWhile (fun s => pure (decide (s.stack.length > 0))) (pure (-1)) fuel s
  pure (s.res, s.written)

/-! ### Taking positions off the stack -/

/-- One value, written at several positions. -/
def fill (res : List Int) (ks : List ℕ) (x : Int) : List Int :=
  ks.foldl (fun res k => res.set k x) res

theorem length_fill (res : List Int) (ks : List ℕ) (x : Int) :
    (fill res ks x).length = res.length := by
  induction ks generalizing res with
  | nil => rfl
  | cons k ks ih =>
      change (fill (res.set k x) ks x).length = res.length
      rw [ih, List.length_set]

theorem fill_of_notMem {res : List Int} {ks : List ℕ} {x : Int} {k : ℕ} (h : k ∉ ks) :
    (fill res ks x)[k]? = res[k]? := by
  induction ks generalizing res with
  | nil => rfl
  | cons k' ks ih =>
      rw [List.mem_cons, not_or] at h
      change (fill (res.set k' x) ks x)[k]? = res[k]?
      rw [ih h.2, List.getElem?_set_ne (Ne.symm h.1)]

theorem fill_of_mem {res : List Int} {ks : List ℕ} {x : Int} {k : ℕ} (h : k ∈ ks)
    (hlt : k < res.length) : (fill res ks x)[k]? = some x := by
  induction ks generalizing res with
  | nil => exact absurd h List.not_mem_nil
  | cons k' ks ih =>
      change (fill (res.set k' x) ks x)[k]? = some x
      by_cases hks : k ∈ ks
      · exact ih hks (by rwa [List.length_set])
      · rcases List.mem_cons.mp h with rfl | h
        · rw [fill_of_notMem hks, List.getElem?_set_self hlt]
        · exact absurd h hks

theorem assignPopped_cons {value : Except Exn Int} {x : Int} (hvalue : value = .ok x)
    {res : List Int} {k : ℕ} (hlt : k < res.length) (stack written : List ℕ) :
    assignPopped value ⟨res, k :: stack, written⟩ =
      .ok ⟨res.set k x, stack, written ++ [k]⟩ := by
  rw [assignPopped, hvalue]
  change (setItem res k x >>= _) = _
  rw [setItem_of_lt hlt]
  rfl

/-- A loop takes the positions off the stack down to the first one that does not have its
    condition, and writes at them. -/
theorem popWhile_returns {cond : Search → Except Exn Bool} {value : Except Exn Int} {x : Int}
    {p : ℕ → Bool} {n : ℕ} (hvalue : value = .ok x)
    (hnil : ∀ res written, cond ⟨res, [], written⟩ = .ok false)
    (hcons : ∀ res k stack written, k < n → cond ⟨res, k :: stack, written⟩ = .ok (p k))
    {res : List Int} {stack : List ℕ} (hres : res.length = n) (hstack : ∀ k ∈ stack, k < n)
    (written : List ℕ) :
    ∀ fuel, stack.length < fuel → Returns (popWhile cond value fuel ⟨res, stack, written⟩)
      ⟨fill res (stack.takeWhile p) x, stack.dropWhile p, written ++ stack.takeWhile p⟩ := by
  -- Every round takes one position off the stack, so the loop ends with it.
  induction stack generalizing res written with
  | nil =>
      refine forall_lt_of_succ (fun fuel _ => ?_)
      rw [popWhile, List.takeWhile_nil, List.dropWhile_nil, List.append_nil]
      exact (Returns.lift (hnil res written)).bind (.pure _)
  | cons k stack ih =>
      have hk : k < n := hstack k (List.mem_cons_self ..)
      refine forall_lt_of_succ (fun fuel hfuel => ?_)
      rw [popWhile]
      refine (Returns.lift (hcons res k stack written hk)).bind ?_
      cases hp : p k with
      | false =>
          have hneg : ¬p k = true := by
            rw [hp]
            exact Bool.false_ne_true
          rw [List.takeWhile_cons_of_neg hneg, List.dropWhile_cons_of_neg hneg, List.append_nil]
          exact .pure _
      | true =>
          rw [List.takeWhile_cons_of_pos hp, List.dropWhile_cons_of_pos hp]
          refine (Returns.lift (assignPopped_cons hvalue (hres ▸ hk) stack written)).bind ?_
          have hrest := @ih (res.set k x) (by rwa [List.length_set])
            (fun k' hk' => hstack k' (List.mem_cons_of_mem k hk')) (written ++ [k]) fuel
            (Nat.lt_of_succ_le hfuel)
          rwa [List.append_assoc] at hrest

/-! ### The loop over the array -/

/-- The values of the array, by position. -/
def value (arr : List Int) (k : ℕ) : Int :=
  arr.getD k 0

theorem getItem_value {arr : List Int} {k : ℕ} (h : k < arr.length) :
    getItem arr k = .ok (value arr k) := by
  rw [getItem_of_lt h, value, List.getD_eq_getElem _ _ h]

theorem smallerThanTop_cons {arr : List Int} {i : ℕ} (hi : i < arr.length) (res : List Int)
    (k : ℕ) (stack written : List ℕ) (hk : k < arr.length) :
    smallerThanTop arr i ⟨res, k :: stack, written⟩ =
      .ok (decide (value arr i < value arr k)) := by
  have hpos : (k :: stack).length > 0 := Nat.succ_pos _
  rw [smallerThanTop, if_pos hpos, getItem_value hi]
  change (getItem arr k >>= _) = _
  rw [getItem_value hk]
  rfl

/-- What the loop over the array keeps, before the round of a position. -/
structure Scanned (arr : List Int) (i : ℕ) (s : Search) : Prop where
  length : s.res.length = arr.length
  stacked : Stacked (value arr) i s.stack
  perm : (s.written ++ s.stack).Perm (List.range i)
  answered : ∀ k j, Next (value arr) k j → j < i → s.res[k]? = some (value arr j)

/-- A round answers what it takes off the stack, and leaves the rest open. -/
theorem Scanned.round {arr : List Int} {i : ℕ} {s : Search} (h : Scanned arr i s)
    (hi : i < arr.length) :
    ∃ s', Scanned arr (i + 1) s' ∧
      ∀ fuel, arr.length < fuel → Returns (scan fuel arr s i) s' := by
  have hlt : ∀ k ∈ s.stack, k < arr.length := fun k hk => (h.stacked.lt hk).trans hi
  -- The loop takes off all positions with a greater value.
  have hloop := @popWhile_returns (smallerThanTop arr i) _ _
    (fun k => decide (value arr i < value arr k)) _ (getItem_value hi) (fun _ _ => rfl)
    (smallerThanTop_cons hi) _ _ h.length hlt s.written
  -- Each position before is on the stack or written, so the fuel suffices.
  have hlen : s.stack.length ≤ i := by
    have hsum := h.perm.length_eq
    rw [List.length_append, List.length_range] at hsum
    omega
  refine ⟨_, ⟨?_, h.stacked.push, ?_, fun k j hnext hj => ?_⟩,
    fun fuel hfuel => (hloop fuel (by omega)).bind (.pure _)⟩
  · rw [length_fill, h.length]
  -- What has been taken off is written, and the position itself is new.
  · have hmid : (s.written ++ s.stack.takeWhile (fun k => decide (value arr i < value arr k)) ++
        i :: s.stack.dropWhile (fun k => decide (value arr i < value arr k))).Perm
        (i :: (s.written ++ s.stack)) := by
      have happ := List.takeWhile_append_dropWhile
        (p := fun k => decide (value arr i < value arr k)) (l := s.stack)
      refine List.perm_middle.trans (.cons i ?_)
      rw [List.append_assoc, happ]
    rw [List.range_succ]
    exact hmid.trans ((h.perm.cons i).trans (List.perm_append_singleton i _).symm)
  · by_cases hki : Next (value arr) k i
    -- There is one answer only.
    · have hji : j = i := by
        rcases Nat.lt_trichotomy j i with hlt' | heq | hgt
        · exact absurd (hki.2.2 j hnext.1 hlt') (not_le.mpr hnext.2.1)
        · exact heq
        · omega
      rw [hji]
      refine fill_of_mem (h.stacked.mem_takeWhile.mpr hki) ?_
      rw [h.length]
      exact hki.1.trans hi
    · have hne : j ≠ i := fun heq => hki (heq ▸ hnext)
      rw [fill_of_notMem (fun hmem => hki (h.stacked.mem_takeWhile.mp hmem))]
      exact h.answered k j hnext (by omega)

theorem Scanned.loop {arr : List Int} {i : ℕ} {s : Search} (h : Scanned arr i s) (m : ℕ)
    (hm : i + m = arr.length) :
    ∃ s', Scanned arr arr.length s' ∧
      ∀ fuel, arr.length < fuel → Returns ((List.range' i m).foldlM (scan fuel arr) s) s' := by
  induction m generalizing i s with
  | zero =>
      rw [Nat.add_zero] at hm
      exact ⟨s, hm ▸ h, fun fuel _ => .pure s⟩
  | succ m ih =>
      rcases h.round (by omega) with ⟨s', hs', hret⟩
      rcases ih hs' (by omega) with ⟨t, ht, hloop⟩
      exact ⟨t, ht, fun fuel hfuel => (hret fuel hfuel).foldlM_cons (hloop fuel hfuel)⟩

theorem Scanned.start (arr : List Int) :
    Scanned arr 0 ⟨List.replicate arr.length 0, [], []⟩ where
  length := List.length_replicate ..
  stacked := .nil _
  perm := .nil
  answered := fun _ _ _ hj => absurd hj (Nat.not_lt_zero _)

/-- The array that is returned has the first smaller values, and `-1` where there is none. -/
theorem findRightSamll_returns (arr : List Int) :
    ∃ res written, (∀ fuel, arr.length < fuel → Returns (findRightSamll fuel arr) (res, written)) ∧
      res.length = arr.length ∧ written.Perm (List.range arr.length) ∧
      (∀ k j, Next (value arr) k j → j < arr.length → res[k]? = some (value arr j)) ∧
      ∀ k, Open (value arr) arr.length k → res[k]? = some (-1) := by
  rcases (Scanned.start arr).loop arr.length (Nat.zero_add _) with ⟨s, hs, hscan⟩
  -- The last loop writes -1 for all positions that are left on the stack.
  have hflush := @popWhile_returns (fun s => pure (decide (s.stack.length > 0))) _ (-1)
    (fun _ => true) _ rfl (fun _ _ => rfl) (fun _ _ _ _ _ => rfl) _ _ hs.length
    (fun _ hk => hs.stacked.lt hk) s.written
  rw [List.takeWhile_eq_self_iff.mpr (fun _ _ => rfl)] at hflush
  have hlen : s.stack.length ≤ arr.length := by
    have hsum := hs.perm.length_eq
    rw [List.length_append, List.length_range] at hsum
    omega
  refine ⟨fill s.res s.stack (-1), s.written ++ s.stack, fun fuel hfuel => ?_, ?_, hs.perm,
    fun k j hnext hj => ?_, fun k hopen => ?_⟩
  · have hrange := hscan fuel hfuel
    rw [← List.range_eq_range'] at hrange
    exact hrange.bind ((hflush fuel (by omega)).bind (.pure _))
  · rw [length_fill, hs.length]
  -- What has an answer is no longer on the stack, so the last loop does not write there.
  · have hnot : k ∉ s.stack := fun hk =>
      absurd (((hs.stacked.mem_iff k).mp hk).2 j hnext.1 hj) (not_le.mpr hnext.2.1)
    rw [fill_of_notMem hnot]
    exact hs.answered k j hnext hj
  · exact fill_of_mem ((hs.stacked.mem_iff k).mpr hopen) (hs.length ▸ hopen.1)

/-! ### Exactness -/

/-- The positions on the right of one with a smaller value than it. -/
def smallerRight (arr : List Int) (i : ℕ) : Set ℕ :=
  {j | i < j ∧ ∃ x y, arr[i]? = some x ∧ arr[j]? = some y ∧ y < x}

theorem value_of_getElem? {arr : List Int} {k : ℕ} {x : Int} (h : arr[k]? = some x) :
    value arr k = x := by
  rw [value, List.getD_eq_getElem?_getD, h, Option.getD_some]

theorem getElem?_value {arr : List Int} {k : ℕ} (h : k < arr.length) :
    arr[k]? = some (value arr k) := by
  rw [value, List.getD_eq_getElem _ _ h, List.getElem?_eq_getElem h]

theorem mem_smallerRight_iff {arr : List Int} {i j : ℕ} :
    j ∈ smallerRight arr i ↔ i < j ∧ j < arr.length ∧ value arr j < value arr i := by
  constructor
  · rintro ⟨hij, x, y, hx, hy, hlt⟩
    rw [value_of_getElem? hx, value_of_getElem? hy]
    exact ⟨hij, (List.getElem?_eq_some_iff.mp hy).1, hlt⟩
  · rintro ⟨hij, hj, hlt⟩
    exact ⟨hij, _, _, getElem?_value (hij.trans hj), getElem?_value hj, hlt⟩

theorem next_of_isLeast {arr : List Int} {i j : ℕ} (h : IsLeast (smallerRight arr i) j) :
    Next (value arr) i j ∧ j < arr.length := by
  rcases mem_smallerRight_iff.mp h.1 with ⟨hij, hj, hlt⟩
  refine ⟨⟨hij, hlt, fun m him hmj => not_lt.mp (fun hm => ?_)⟩, hj⟩
  exact absurd (h.2 (mem_smallerRight_iff.mpr ⟨him, hmj.trans hj, hm⟩)) (Nat.not_le_of_lt hmj)

/-- The result has at each position the value at the first one after it that is smaller, and `-1`
    if there is none. Each position is written once. -/
theorem findRightSamll_correct (arr : List Int) :
    ∃ res written, Terminates (fun fuel => findRightSamll fuel arr) (res, written) ∧
      res.length = arr.length ∧ written.Perm (List.range arr.length) ∧
      ∀ i < arr.length,
        (∀ j, IsLeast (smallerRight arr i) j → res[i]? = arr[j]?) ∧
        (smallerRight arr i = ∅ → res[i]? = some (-1)) := by
  rcases findRightSamll_returns arr with ⟨res, written, hret, hlen, hperm, hnext, hopen⟩
  refine ⟨res, written, ⟨_, hret⟩, hlen, hperm, fun i hi => ⟨fun j hj => ?_, fun hnone => ?_⟩⟩
  · rcases next_of_isLeast hj with ⟨hij, hlt⟩
    rw [hnext i j hij hlt, getElem?_value hlt]
  · refine hopen i ⟨hi, fun m him hm => not_lt.mp (fun hlt => ?_)⟩
    have hmem : m ∈ smallerRight arr i := mem_smallerRight_iff.mpr ⟨him, hm, hlt⟩
    rw [hnone] at hmem
    exact hmem

/-- The array of the sample. -/
example : findRightSamll 8 [1, 2, 4, 9, 4, 0, 5] =
    pure ([0, 0, 0, 4, 0, -1, -1], [3, 4, 2, 1, 0, 6, 5]) :=
  rfl

end MonotonicStack

end BlogSample
