import BlogSample.DotNet
import BlogSample.Theory.Fuel

/-!
# Big Number Addition

`AddTwoNumbers` of the big number sample, which adds two numbers given by their
decimal digits, the most significant one first. It goes through both arrays
from the end, takes `0` for a digit beyond the start of the shorter one, and
puts each digit of the sum in front of `res`.

A call is about what is left of the two arrays and the carry. Its sum is that
of the calls in it with one more digit behind, so the equation of the values
goes through for every pair of prefixes and every carry. The sums are of two
digits and a carry, so no integer gets near the bounds of its type.

## Main definitions

* `addTwoNumbers`: The function.
* `IsDigit`, `value`: Digits, and the number that a list of them stands for.
* `upToIndex`: What is left of an array.
* `Sums`: A list of digits is the sum of two numbers and a carry.

## Theorems

* `digit_spec`: The digit of a round, and what it stands for.
* `addTwoNumbers_returns`: What a call with a carry puts in front of `res`.
* `addTwoNumbers_correct`: The sum of the two numbers.
-/

namespace BlogSample

namespace BigNumberAdd

open DotNet Fuel

/-- `idx >= 0 ? arr[idx] : 0`. -/
def digit (arr : List Int) (idx : Int) : Except Exn Int :=
  if idx ≥ 0 then getItem arr idx else pure 0

/-- `AddTwoNumbers(arr1, idx1, arr2, idx2, carry)`, with the list `res` before and after it. -/
def addTwoNumbers : ℕ → List Int → Int → List Int → Int → Int → List Int → Call Exn (List Int)
  | 0, _, _, _, _, _, _ => outOfFuel
  | fuel + 1, arr1, idx1, arr2, idx2, carry, res =>
      if idx1 < 0 ∧ idx2 < 0 ∧ carry = 0 then pure res
      else do
        let x ← digit arr1 idx1
        let y ← digit arr2 idx2
        let total := x + y + carry
        addTwoNumbers fuel arr1 (idx1 - 1) arr2 (idx2 - 1) (total.tdiv 10) (total.tmod 10 :: res)

/-! ### Digits and what they stand for -/

/-- A decimal digit. -/
def IsDigit (d : Int) : Prop :=
  0 ≤ d ∧ d ≤ 9

/-- The number that a list of digits stands for, the most significant one first. -/
def value (ds : List Int) : Int :=
  ds.foldl (fun v d => 10 * v + d) 0

theorem value_append_singleton (ds : List Int) (d : Int) :
    value (ds ++ [d]) = 10 * value ds + d := by
  rw [value, List.foldl_append]
  rfl

/-- The part of an array up to an index. -/
def upToIndex (arr : List Int) (idx : Int) : List Int :=
  arr.take (idx + 1).toNat

theorem upToIndex_of_neg {arr : List Int} {idx : Int} (h : idx < 0) : upToIndex arr idx = [] := by
  rw [upToIndex, Int.toNat_of_nonpos (by omega), List.take_zero]

theorem upToIndex_last (arr : List Int) : upToIndex arr (arr.length - 1) = arr := by
  rw [upToIndex, Int.sub_add_cancel, Int.toNat_natCast, List.take_length]

/-- The digit of a round, and what it stands for next to those before it. -/
theorem digit_spec {arr : List Int} (harr : ∀ d ∈ arr, IsDigit d) {idx : Int}
    (hidx : idx < arr.length) :
    ∃ x, digit arr idx = .ok x ∧ IsDigit x ∧
      value (upToIndex arr idx) = 10 * value (upToIndex arr (idx - 1)) + x := by
  by_cases hneg : idx < 0
  -- Beyond the start of the array, nothing is left of it.
  · refine ⟨0, ?_, ⟨Int.le_refl 0, by decide⟩, ?_⟩
    · rw [digit, if_neg (by omega)]
      rfl
    · rw [upToIndex_of_neg hneg, upToIndex_of_neg (by omega)]
      rfl
  · rcases Int.eq_ofNat_of_zero_le (Int.not_lt.mp hneg) with ⟨k, rfl⟩
    have hk : k < arr.length := by omega
    refine ⟨arr[k], ?_, harr _ (List.getElem_mem hk), ?_⟩
    · rw [digit, if_pos (by omega), getItem_of_lt hk]
    · have hleft : (k - 1 + 1 : Int).toNat = k := by omega
      have hall : ((k : Int) + 1).toNat = k + 1 := by omega
      rw [← value_append_singleton, upToIndex, upToIndex, hleft, hall, List.take_add_one,
        List.getElem?_eq_getElem hk]
      rfl

/-- A list of digits is a sum, and has a number of them or a `1` in front of that many. -/
structure Sums (ds : List Int) (sum : Int) (len : ℕ) : Prop where
  digits : ∀ d ∈ ds, IsDigit d
  value : value ds = sum
  length : ds.length = len ∨ ds.length = len + 1 ∧ ds.head? = some 1

theorem Sums.nil : Sums [] 0 0 where
  digits := fun _ hd => absurd hd List.not_mem_nil
  value := rfl
  length := .inl rfl

theorem Sums.one : Sums [1] 1 0 where
  digits := fun d hd => by
    rw [List.mem_singleton.mp hd]
    exact ⟨by decide, by decide⟩
  value := rfl
  length := .inr ⟨rfl, rfl⟩

/-- A digit behind those of a sum. -/
theorem Sums.snoc {ds : List Int} {sum d : Int} {len : ℕ} (h : Sums ds sum len) (hd : IsDigit d) :
    Sums (ds ++ [d]) (10 * sum + d) (len + 1) where
  digits := fun d' hd' => by
    rcases List.mem_append.mp hd' with hd' | hd'
    · exact h.digits d' hd'
    · rw [List.mem_singleton.mp hd']
      exact hd
  value := by rw [value_append_singleton, h.value]
  length := by
    rw [List.length_append, List.length_singleton]
    rcases h.length with hlen | ⟨hlen, hhead⟩
    · exact .inl (by omega)
    · refine .inr ⟨by omega, ?_⟩
      rw [List.head?_append, hhead, Option.some_or]

/-! ### The sum -/

section

variable {arr1 arr2 : List Int} (h1 : ∀ d ∈ arr1, IsDigit d) (h2 : ∀ d ∈ arr2, IsDigit d)

include h1 h2

/-- A round puts the last digit of its total in front of `res` and goes on with the first one. -/
theorem addTwoNumbers_round {idx1 idx2 carry : Int} (hidx1 : idx1 < arr1.length)
    (hidx2 : idx2 < arr2.length) (hcarry : carry = 0 ∨ carry = 1)
    (hgo : ¬(idx1 < 0 ∧ idx2 < 0 ∧ carry = 0)) :
    ∃ d carry', IsDigit d ∧ (carry' = 0 ∨ carry' = 1) ∧
      value (upToIndex arr1 idx1) + value (upToIndex arr2 idx2) + carry =
        10 * (value (upToIndex arr1 (idx1 - 1)) + value (upToIndex arr2 (idx2 - 1)) + carry') +
          d ∧
      (idx1 < 0 → idx2 < 0 → carry' = 0) ∧
      ∀ fuel res, addTwoNumbers (fuel + 1) arr1 idx1 arr2 idx2 carry res =
        addTwoNumbers fuel arr1 (idx1 - 1) arr2 (idx2 - 1) carry' (d :: res) := by
  rcases digit_spec h1 hidx1 with ⟨x, hx, ⟨hx0, hx9⟩, hvx⟩
  rcases digit_spec h2 hidx2 with ⟨y, hy, ⟨hy0, hy9⟩, hvy⟩
  -- The total is at most `9 + 9 + 1`.
  have htotal : 0 ≤ x + y + carry ∧ x + y + carry ≤ 19 := by omega
  have hdiv : (x + y + carry).tdiv 10 = (x + y + carry) / 10 :=
    Int.tdiv_eq_ediv_of_nonneg htotal.1
  have hmod : (x + y + carry).tmod 10 = (x + y + carry) % 10 :=
    Int.tmod_eq_emod_of_nonneg htotal.1
  refine ⟨(x + y + carry) % 10, (x + y + carry) / 10, ⟨by omega, by omega⟩, by omega, by omega,
    fun hneg1 hneg2 => ?_, fun fuel res => ?_⟩
  · rw [digit, if_neg (by omega)] at hx hy
    cases hx
    cases hy
    omega
  · rw [addTwoNumbers, if_neg hgo, hx, hy, ← hdiv, ← hmod]
    rfl

/-- What a call puts in front of `res`, for what is left of the arrays and any carry. -/
theorem addTwoNumbers_returns (n : ℕ) {idx1 idx2 carry : Int} (hidx1 : idx1 < arr1.length)
    (hidx2 : idx2 < arr2.length) (hcarry : carry = 0 ∨ carry = 1)
    (hn : max (idx1 + 1).toNat (idx2 + 1).toNat = n) :
    ∃ ds, Sums ds (value (upToIndex arr1 idx1) + value (upToIndex arr2 idx2) + carry) n ∧
      ∀ res fuel, n + 1 < fuel →
        Returns (addTwoNumbers fuel arr1 idx1 arr2 idx2 carry res) (ds ++ res) := by
  induction n generalizing idx1 idx2 carry with
  | zero =>
      -- Both arrays are exhausted, and there may be a carry.
      have hneg1 : idx1 < 0 := by omega
      have hneg2 : idx2 < 0 := by omega
      have hstop (fuel : ℕ) (i j : Int) (hi : i < 0) (hj : j < 0) (res : List Int) :
          Returns (addTwoNumbers (fuel + 1) arr1 i arr2 j 0 res) res := by
        rw [addTwoNumbers, if_pos ⟨hi, hj, rfl⟩]
        exact .pure res
      rcases hcarry with rfl | rfl
      · refine ⟨[], ?_, fun res => forall_lt_of_succ (fun fuel _ => ?_)⟩
        · rw [upToIndex_of_neg hneg1, upToIndex_of_neg hneg2]
          exact .nil
        · exact hstop fuel idx1 idx2 hneg1 hneg2 res
      -- One more round writes the carry, and leaves none.
      · rcases addTwoNumbers_round h1 h2 hidx1 hidx2 (.inr rfl) (by omega) with
          ⟨d, carry', hd, _, hsum, hzero, hround⟩
        rw [upToIndex_of_neg hneg1, upToIndex_of_neg hneg2, hzero hneg1 hneg2,
          upToIndex_of_neg (by omega), upToIndex_of_neg (by omega)] at hsum
        have hd1 : d = 1 := by
          have hnil : value [] = 0 := rfl
          omega
        refine ⟨[1], ?_, fun res => forall_lt_of_succ (fun fuel hfuel => ?_)⟩
        · rw [upToIndex_of_neg hneg1, upToIndex_of_neg hneg2]
          exact .one
        · rw [hround, hzero hneg1 hneg2, hd1]
          rcases Nat.exists_eq_add_one_of_ne_zero (show fuel ≠ 0 by omega) with ⟨fuel, rfl⟩
          exact hstop fuel _ _ (by omega) (by omega) _
  | succ n ih =>
      rcases addTwoNumbers_round h1 h2 hidx1 hidx2 hcarry (by omega) with
        ⟨d, carry', hd, hcarry', hsum, _, hround⟩
      rcases ih (show idx1 - 1 < arr1.length by omega) (show idx2 - 1 < arr2.length by omega)
        hcarry' (by omega) with ⟨ds, hds, hret⟩
      refine ⟨ds ++ [d], ?_, fun res => forall_lt_of_succ (fun fuel hfuel => ?_)⟩
      · rw [hsum]
        exact hds.snoc hd
      · rw [hround, List.append_assoc]
        exact hret (d :: res) fuel (by omega)

/-- The call on the whole arrays puts their sum in front of `res`: as many digits as the longer
    array has, or a `1` in front of that many. -/
theorem addTwoNumbers_correct (res : List Int) :
    ∃ ds, Terminates (fun fuel =>
        addTwoNumbers fuel arr1 (arr1.length - 1) arr2 (arr2.length - 1) 0 res) (ds ++ res) ∧
      (∀ d ∈ ds, IsDigit d) ∧ value ds = value arr1 + value arr2 ∧
      (ds.length = max arr1.length arr2.length ∨
        ds.length = max arr1.length arr2.length + 1 ∧ ds.head? = some 1) := by
  rcases addTwoNumbers_returns h1 h2 (max arr1.length arr2.length)
    (show (arr1.length - 1 : Int) < arr1.length by omega)
    (show (arr2.length - 1 : Int) < arr2.length by omega) (.inl rfl) (by omega) with
    ⟨ds, hds, hret⟩
  rw [upToIndex_last, upToIndex_last, Int.add_zero] at hds
  exact ⟨ds, ⟨_, hret res⟩, hds.digits, hds.value, hds.length⟩

end

/-- A carry that goes through all digits of the longer number. -/
theorem addTwoNumbers_correct_carries :
    ∃ ds, Terminates (fun fuel => addTwoNumbers fuel [9, 9, 8, 7] 3 [1, 3] 1 0 []) (ds ++ []) ∧
      (∀ d ∈ ds, IsDigit d) ∧ value ds = 10000 ∧
      (ds.length = 4 ∨ ds.length = 5 ∧ ds.head? = some 1) :=
  @addTwoNumbers_correct [9, 9, 8, 7] [1, 3] (by unfold IsDigit; decide)
    (by unfold IsDigit; decide) []

end BigNumberAdd

end BlogSample
