import BlogSample.DotNet
import Mathlib.Data.List.GetD

/-!
# Lists as Objects

`List<T>` where it matters which list is meant. A variable holds a reference,
so two variables may hold the same list, and what is done through one of them
is seen through the other. A reference is the number of the list among those
that have been made.

## Main definitions

* `ListHeap`: The elements of every list.
* `ListHeap.new`, `ListHeap.add`, `ListHeap.removeAt`, ...: The constructor and
  the methods.
* `ListHeap.addFrom`: A loop that adds some elements of one list to another one.

## Theorems

* `ListHeap.elements_set_self`, `ListHeap.elements_set_of_ne`: A list that is
  changed, and the other ones.
* `ListHeap.moveFirst_eq`: An element goes from one list to another one.
* `ListHeap.addFrom_eq`, `ListHeap.addFrom_all`: What such a loop does.
-/

namespace BlogSample

namespace DotNet

/-- The lists that have been made, each with its elements. -/
abbrev ListHeap (α : Type) := List (List α)

namespace ListHeap

variable {α : Type}

/-- The elements of a list. -/
def elements (h : ListHeap α) (ref : ℕ) : List α :=
  h.getD ref []

/-- `new List<T>()`. -/
def new (h : ListHeap α) : ℕ × ListHeap α :=
  (h.length, h ++ [[]])

/-- `list.Count`. -/
def count (h : ListHeap α) (ref : ℕ) : Int :=
  (h.elements ref).length

/-- `list[index]`. -/
def item (h : ListHeap α) (ref : ℕ) (index : Int) : Except Exn α :=
  if index < 0 then throw .argumentOutOfRange
  else
    match (h.elements ref)[index.toNat]? with
    | none => throw .argumentOutOfRange
    | some x => pure x

/-- `list.Add(item)`. -/
def add (h : ListHeap α) (ref : ℕ) (item : α) : ListHeap α :=
  h.set ref (h.elements ref ++ [item])

/-- `list.RemoveAt(index)`. -/
def removeAt (h : ListHeap α) (ref : ℕ) (index : Int) : Except Exn (ListHeap α) :=
  if 0 ≤ index ∧ index < h.count ref then
    pure (h.set ref ((h.elements ref).eraseIdx index.toNat))
  else throw .argumentOutOfRange

/-- `for (int i = lo; i < hi; i++) to.Add(from[i])`, where the two lists are not the same. -/
def addFrom (source target : ℕ) (lo hi : Int) (h : ListHeap α) : Except Exn (ListHeap α) :=
  (upTo lo hi).foldlM (fun h i => do
    let x ← h.item source i
    pure (h.add target x)) h

variable {h : ListHeap α} {ref ref' : ℕ}

theorem elements_set_self (hlt : ref < h.length) (xs : List α) :
    elements (h.set ref xs) ref = xs := by
  rw [elements, List.getD_eq_getElem?_getD, List.getElem?_set_self hlt, Option.getD_some]

theorem elements_set_of_ne (hne : ref' ≠ ref) (xs : List α) :
    elements (h.set ref xs) ref' = h.elements ref' := by
  rw [elements, elements, List.getD_eq_getElem?_getD, List.getElem?_set_ne hne.symm,
    ← List.getD_eq_getElem?_getD]

theorem set_elements (h : ListHeap α) (ref : ℕ) : h.set ref (h.elements ref) = h := by
  refine List.ext_getElem? (fun i => ?_)
  by_cases hi : i = ref
  · by_cases hlt : ref < h.length
    · rw [hi, List.getElem?_set_self hlt, elements, List.getD_eq_getElem _ _ hlt,
        List.getElem?_eq_getElem hlt]
    · rw [List.set_eq_of_length_le (Nat.le_of_not_lt hlt)]
  · rw [List.getElem?_set_ne (Ne.symm hi)]

/-- A new list is empty. -/
theorem elements_new_self (h : ListHeap α) : elements h.new.2 h.length = [] := by
  rw [new, elements, List.getD_append_right _ _ _ _ (Nat.le_refl _), Nat.sub_self]
  rfl

theorem elements_new_of_lt (hlt : ref < h.length) : elements h.new.2 ref = h.elements ref := by
  rw [new, elements, List.getD_append _ _ _ _ hlt, elements]

theorem length_new (h : ListHeap α) : h.new.2.length = h.length + 1 := by
  rw [new, List.length_append, List.length_singleton]

theorem length_add (x : α) : (h.add ref x).length = h.length := by
  rw [add, List.length_set]

/-- An index that is given by what stands before it. -/
theorem item_append {A C : List α} {x : α} (hsource : h.elements ref = A ++ x :: C) {i : Int}
    (hi : i = A.length) : h.item ref i = .ok x := by
  have hget : (A ++ x :: C)[A.length]? = some x := by
    rw [List.getElem?_append_right (Nat.le_refl _), Nat.sub_self, List.getElem?_cons_zero]
  rw [item, if_neg (by omega), hi, Int.toNat_natCast, hsource, hget]
  rfl

theorem removeAt_zero {x : α} {xs : List α} (hlist : h.elements ref = x :: xs) :
    h.removeAt ref 0 = .ok (h.set ref xs) := by
  have hcount : (0 : Int) < h.count ref := by
    rw [count, hlist, List.length_cons]
    omega
  rw [removeAt, if_pos ⟨Int.le_refl 0, hcount⟩, hlist]
  rfl

/-- The first element of a list is taken out of it, after it was added to another one. -/
theorem moveFirst_eq {source target : ℕ} (hne : source ≠ target) (hsource : source < h.length)
    (htarget : target < h.length) {x : α} {xs : List α} (hlist : h.elements source = x :: xs) :
    ∃ h', (h.add target x).removeAt source 0 = .ok h' ∧ h'.length = h.length ∧
      h'.elements source = xs ∧ h'.elements target = h.elements target ++ [x] ∧
      ∀ ref, ref ≠ source → ref ≠ target → h'.elements ref = h.elements ref := by
  have hadd : (h.add target x).elements source = x :: xs := by
    rw [add, elements_set_of_ne hne, hlist]
  refine ⟨_, removeAt_zero hadd, ?_, ?_, ?_, fun ref hs ht => ?_⟩
  · rw [List.length_set, length_add]
  · exact elements_set_self (by rwa [length_add]) xs
  · rw [elements_set_of_ne hne.symm, add, elements_set_self htarget]
  · rw [elements_set_of_ne hs, add, elements_set_of_ne ht]

/-- The loop adds a part of the one list to the other one. -/
theorem addFrom_eq {source target : ℕ} (hne : source ≠ target) {A B C : List α} {lo hi : Int}
    (hlo : lo = A.length) (hhi : hi = A.length + B.length) (htarget : target < h.length)
    (hsource : h.elements source = A ++ (B ++ C)) :
    addFrom source target lo hi h = .ok (h.set target (h.elements target ++ B)) := by
  unfold addFrom
  -- The induction is on what is left to be added, behind what the loop has passed.
  induction B generalizing A lo h with
  | nil =>
      rw [List.length_nil] at hhi
      rw [upTo_of_le (by omega), List.append_nil, set_elements]
      rfl
  | cons x B ih =>
      rw [List.length_cons] at hhi
      rw [upTo_cons (by omega)]
      have hstep : (do
          let y ← h.item source lo
          pure (h.add target y) : Except Exn (ListHeap α)) = .ok (h.add target x) := by
        rw [item_append (A := A) (C := B ++ C) hsource hlo]
        rfl
      rw [foldlM_cons_ok hstep]
      rw [ih (A := A ++ [x]) (h := h.add target x)
        (by rw [List.length_append, List.length_singleton]; omega)
        (by rw [List.length_append, List.length_singleton]; omega)
        (by rwa [length_add])
        (by rw [add, elements_set_of_ne hne, hsource]; simp only [List.append_assoc,
              List.cons_append, List.nil_append])]
      rw [add, elements_set_self htarget, List.set_set, List.append_assoc]
      rfl

/-- The loop over a whole list. -/
theorem addFrom_all {source target : ℕ} (hne : source ≠ target) (htarget : target < h.length) :
    addFrom source target 0 (h.count source) h =
      .ok (h.set target (h.elements target ++ h.elements source)) :=
  addFrom_eq hne (A := []) (C := []) rfl (by rw [count, List.length_nil]; omega) htarget
    (by rw [List.append_nil, List.nil_append])

end ListHeap

end DotNet

end BlogSample
