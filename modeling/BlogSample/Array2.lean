import BlogSample.DotNet
import Mathlib.Data.Fin.Basic
import Mathlib.Logic.Function.Basic

/-!
# Arrays with Two Dimensions

`T[,]`, whose elements are given by their row and column. The two bounds are part
of the type, and an access outside of them throws.

## Main definitions

* `Array2`: An array.
* `Array2.InBounds`, `Array2.item`, `Array2.assign`: Its bounds and its indexer.
* `Array2.write`: An array with another value at one place.
* `downFrom`: The values of a `for` loop that counts down to zero.

## Theorems

* `Array2.item_fin`, `Array2.assign_fin`: An access that is in bounds.
* `mem_downFrom`, `mem_zip_range`: The values of one variable, and of two.
* `Array2.write_apply`, `Array2.write_write`, `Array2.write_eq_self`: What is
  written.
-/

namespace BlogSample

namespace DotNet

/-- `T[,]` with a number of rows and of columns. -/
abbrev Array2 (α : Type) (rows cols : ℕ) := Fin rows → Fin cols → α

namespace Array2

variable {α : Type} {rows cols : ℕ}

/-- `a.Length`. -/
def length (_ : Array2 α rows cols) : ℕ :=
  rows * cols

/-- The array with another value at one place. -/
def write (a : Array2 α rows cols) (i : Fin rows) (j : Fin cols) (v : α) : Array2 α rows cols :=
  Function.update a i (Function.update (a i) j v)

/-- There is an element with this row and column. -/
def InBounds (rows cols : ℕ) (y x : Int) : Prop :=
  (0 ≤ y ∧ y.toNat < rows) ∧ 0 ≤ x ∧ x.toNat < cols

instance (rows cols : ℕ) (y x : Int) : Decidable (InBounds rows cols y x) :=
  inferInstanceAs (Decidable ((0 ≤ y ∧ y.toNat < rows) ∧ 0 ≤ x ∧ x.toNat < cols))

theorem InBounds.row {y x : Int} (h : InBounds rows cols y x) : y.toNat < rows :=
  h.1.2

theorem InBounds.col {y x : Int} (h : InBounds rows cols y x) : x.toNat < cols :=
  h.2.2

/-- `a[y, x]`. -/
def item (a : Array2 α rows cols) (y x : Int) : Except Exn α :=
  if h : InBounds rows cols y x then pure (a ⟨y.toNat, h.row⟩ ⟨x.toNat, h.col⟩)
  else throw .indexOutOfRange

/-- `a[y, x] = v`. -/
def assign (a : Array2 α rows cols) (y x : Int) (v : α) : Except Exn (Array2 α rows cols) :=
  if h : InBounds rows cols y x then
    pure (a.write ⟨y.toNat, h.row⟩ ⟨x.toNat, h.col⟩ v)
  else throw .indexOutOfRange

theorem item_fin (a : Array2 α rows cols) (i : Fin rows) (j : Fin cols) {y x : Int}
    (hy : y = i.val) (hx : x = j.val) : a.item y x = .ok (a i j) := by
  subst hy hx
  rw [item, dif_pos ⟨⟨Int.natCast_nonneg _, i.isLt⟩, Int.natCast_nonneg _, j.isLt⟩]
  rfl

theorem assign_fin (a : Array2 α rows cols) (i : Fin rows) (j : Fin cols) (v : α) {y x : Int}
    (hy : y = i.val) (hx : x = j.val) : a.assign y x v = .ok (a.write i j v) := by
  subst hy hx
  rw [assign, dif_pos ⟨⟨Int.natCast_nonneg _, i.isLt⟩, Int.natCast_nonneg _, j.isLt⟩]
  rfl

theorem write_apply (a : Array2 α rows cols) (i k : Fin rows) (j l : Fin cols) (v : α) :
    a.write i j v k l = if k = i ∧ l = j then v else a k l := by
  unfold write
  by_cases hk : k = i
  · subst hk
    rw [Function.update_self]
    by_cases hl : l = j
    · rw [hl, Function.update_self, if_pos ⟨rfl, rfl⟩]
    -- The rest of the row stays.
    · rw [Function.update_of_ne hl, if_neg (fun h => hl h.2)]
  · rw [Function.update_of_ne hk, if_neg (fun h => hk h.1)]

theorem write_write (a : Array2 α rows cols) (i : Fin rows) (j : Fin cols) (v w : α) :
    (a.write i j v).write i j w = a.write i j w := by
  unfold write
  rw [Function.update_self, Function.update_idem, Function.update_idem]

/-- Writing what is there changes nothing. -/
theorem write_eq_self (a : Array2 α rows cols) (i : Fin rows) (j : Fin cols) :
    a.write i j (a i j) = a := by
  unfold write
  rw [Function.update_eq_self, Function.update_eq_self]

end Array2

/-- The values of `i` in `for (int i = hi; i >= 0; i--)`. -/
def downFrom (hi : Int) : List Int :=
  (List.range (hi + 1).toNat).map (fun (k : ℕ) => hi - (k : Int))

theorem mem_downFrom {a hi : Int} : a ∈ downFrom hi ↔ 0 ≤ a ∧ a ≤ hi := by
  rw [downFrom, List.mem_map]
  constructor
  · rintro ⟨k, hk, rfl⟩
    rw [List.mem_range] at hk
    omega
  · intro h
    exact ⟨(hi - a).toNat, List.mem_range.mpr (by omega), by omega⟩

/-- The values of two variables of one loop. -/
theorem mem_zip_range {f g : ℕ → Int} {a b : ℕ} {c : Int × Int} :
    c ∈ ((List.range a).map f).zip ((List.range b).map g) ↔
      ∃ k, k < a ∧ k < b ∧ c = (f k, g k) := by
  rw [List.mem_iff_getElem]
  constructor
  · rintro ⟨k, hk, rfl⟩
    -- The loop ends with the shorter of the two.
    rw [List.length_zip, List.length_map, List.length_map, List.length_range, List.length_range,
      Nat.lt_min] at hk
    refine ⟨k, hk.1, hk.2, ?_⟩
    rw [List.getElem_zip, List.getElem_map, List.getElem_map, List.getElem_range,
      List.getElem_range]
  · rintro ⟨k, ha, hb, rfl⟩
    refine ⟨k, ?_, ?_⟩
    · rw [List.length_zip, List.length_map, List.length_map, List.length_range, List.length_range]
      exact Nat.lt_min.mpr ⟨ha, hb⟩
    · rw [List.getElem_zip, List.getElem_map, List.getElem_map, List.getElem_range,
        List.getElem_range]

end DotNet

end BlogSample
