import Mathlib.Data.List.Basic
import Mathlib.Logic.Function.Basic

/-!
# Tallies

A weight for every cell of a list, added up. A machine keeps its data in a few
lists and moves things from one to another, so a quantity that is never
duplicated is a sum of tallies, and a step changes one or two cells.
`tally_set` says what a change of one cell does to the sum, without
subtraction, so that the sums of several lists are compared by linear
arithmetic.

## Main definitions

* `tally`: The weights of the cells of a list, added up.

## Theorems

* `tally_set`: Replacing a cell replaces its weight.
* `tally_add`: Two weights may be added up before or after the cells.
* `le_tally`, `add_le_tally`: Cells weigh no more than the list.
* `eq_one_of_length_le_tally`: A full tally.
* `tally_update`: A change at one key changes the weight of one cell.
* `tally_pos_iff`: A list has weight if one of its cells has.
* `tally_eq_of_tally_le_one`: A list in which one cell has all the weight.
-/

namespace BlogSample

universe u

variable {α : Type u}

/-- The weights of the cells of a list, added up. -/
def tally (w : α → Nat) : List α → Nat
  | [] => 0
  | a :: l => w a + tally w l

@[simp]
theorem tally_nil (w : α → Nat) : tally w [] = 0 :=
  rfl

@[simp]
theorem tally_cons (w : α → Nat) (a : α) (l : List α) : tally w (a :: l) = w a + tally w l :=
  rfl

@[simp]
theorem tally_append (w : α → Nat) (l l' : List α) :
    tally w (l ++ l') = tally w l + tally w l' := by
  induction l with
  | nil => exact (Nat.zero_add _).symm
  | cons a l ih =>
      rw [List.cons_append, tally_cons, tally_cons, ih]
      omega

/-- Two weights may be added up before or after the cells. -/
theorem tally_add (w v : α → Nat) (l : List α) :
    tally (fun a => w a + v a) l = tally w l + tally v l := by
  induction l with
  | nil => rfl
  | cons a l ih =>
      rw [tally_cons, tally_cons, tally_cons, ih]
      omega

/-- A cell weighs no more than the list. -/
theorem le_tally (w : α → Nat) {l : List α} {a : α} (h : a ∈ l) : w a ≤ tally w l := by
  induction l with
  | nil => cases h
  | cons b l ih =>
      rw [tally_cons]
      rcases List.mem_cons.mp h with rfl | h
      · omega
      · have hl := ih h
        omega

/-- Two different cells weigh no more than the list. -/
theorem add_le_tally (w : α → Nat) {l : List α} {i j : Nat} {a b : α} (hij : i ≠ j)
    (ha : l[i]? = some a) (hb : l[j]? = some b) : w a + w b ≤ tally w l := by
  induction l generalizing i j with
  | nil => cases ha
  | cons c l ih =>
      rw [tally_cons]
      rcases i with _ | i
      · rcases j with _ | j
        · exact absurd rfl hij
        · rw [List.getElem?_cons_zero, Option.some.injEq] at ha
          rw [List.getElem?_cons_succ] at hb
          have hcell := le_tally w (List.mem_of_getElem? hb)
          rw [ha]
          omega
      · rw [List.getElem?_cons_succ] at ha
        rcases j with _ | j
        · rw [List.getElem?_cons_zero, Option.some.injEq] at hb
          have hcell := le_tally w (List.mem_of_getElem? ha)
          rw [hb]
          omega
        · rw [List.getElem?_cons_succ] at hb
          have htail := ih (fun h => hij (congrArg (· + 1) h)) ha hb
          omega

/-- Replacing a cell replaces its weight. -/
theorem tally_set (w : α → Nat) (b : α) {l : List α} {i : Nat} {a : α} (h : l[i]? = some a) :
    tally w (l.set i b) + w a = tally w l + w b := by
  induction l generalizing i with
  | nil => cases h
  | cons c l ih =>
      cases i with
      | zero =>
          rw [List.getElem?_cons_zero, Option.some.injEq] at h
          rw [List.set_cons_zero, tally_cons, tally_cons, h]
          omega
      | succ i =>
          rw [List.getElem?_cons_succ] at h
          have hl := ih h
          rw [List.set_cons_succ, tally_cons, tally_cons]
          omega

/-- Only the weights of the cells matter. -/
theorem tally_congr {w v : α → Nat} {l : List α} (h : ∀ a ∈ l, w a = v a) :
    tally w l = tally v l := by
  induction l with
  | nil => rfl
  | cons a l ih =>
      rw [tally_cons, tally_cons, h a List.mem_cons_self,
        ih (fun b hb => h b (List.mem_cons_of_mem a hb))]

/-- Heavier cells make a heavier list. -/
theorem tally_mono {w v : α → Nat} (h : ∀ a, w a ≤ v a) (l : List α) : tally w l ≤ tally v l := by
  induction l with
  | nil => exact Nat.le_refl 0
  | cons a l ih =>
      rw [tally_cons, tally_cons]
      exact Nat.add_le_add (h a) ih

/-- No weight is more than one for each cell. -/
theorem tally_le_length {w : α → Nat} {l : List α} (h : ∀ a ∈ l, w a ≤ 1) :
    tally w l ≤ l.length := by
  induction l with
  | nil => exact Nat.le_refl 0
  | cons a l ih =>
      have hcell := h a List.mem_cons_self
      have htail := ih (fun b hb => h b (List.mem_cons_of_mem a hb))
      rw [tally_cons, List.length_cons]
      omega

/-- A weight of one for each cell makes the length. -/
theorem tally_eq_length {w : α → Nat} {l : List α} (h : ∀ a ∈ l, w a = 1) :
    tally w l = l.length := by
  induction l with
  | nil => rfl
  | cons a l ih =>
      rw [tally_cons, List.length_cons, h a List.mem_cons_self,
        ih (fun b hb => h b (List.mem_cons_of_mem a hb))]
      omega

/-- If there is a weight of one for each cell, each cell has one. -/
theorem eq_one_of_length_le_tally {w : α → Nat} {l : List α} (h : ∀ a ∈ l, w a ≤ 1)
    (hlength : l.length ≤ tally w l) : ∀ a ∈ l, w a = 1 := by
  induction l with
  | nil => exact fun a ha => absurd ha List.not_mem_nil
  | cons b l ih =>
      have hcell := h b List.mem_cons_self
      have hrest := fun c hc => h c (List.mem_cons_of_mem b hc)
      have hle := tally_le_length hrest
      rw [tally_cons, List.length_cons] at hlength
      intro a ha
      rcases List.mem_cons.mp ha with rfl | ha
      · omega
      · exact ih hrest (by omega) a ha

/-- Where the cells are told apart by a key, a change at one key changes the
    weight of one cell. -/
theorem tally_update {κ β : Type u} [DecidableEq κ] (key : α → κ) (w : β → Nat) (f : κ → β)
    (k : κ) (b : β) {l : List α} (hnodup : (l.map key).Nodup) (hk : k ∈ l.map key) :
    tally (fun a => w (Function.update f k b (key a))) l + w (f k) =
      tally (fun a => w (f (key a))) l + w b := by
  induction l with
  | nil => cases hk
  | cons a l ih =>
      rw [List.map_cons, List.nodup_cons] at hnodup
      rw [tally_cons, tally_cons]
      by_cases ha : key a = k
      · have hrest : tally (fun a => w (Function.update f k b (key a))) l =
            tally (fun a => w (f (key a))) l := by
          refine tally_congr (fun c hc => ?_)
          have hne : key c ≠ k := by
            intro hck
            exact hnodup.1 (List.mem_map.mpr ⟨c, hc, hck.trans ha.symm⟩)
          rw [Function.update_of_ne hne]
        rw [hrest, ha, Function.update_self]
        omega
      · have htail := ih hnodup.2 ((List.mem_cons.mp hk).resolve_left (fun h => ha h.symm))
        rw [Function.update_of_ne ha]
        omega

/-- A list has weight if one of its cells has. -/
theorem tally_pos_iff (w : α → Nat) (l : List α) : 0 < tally w l ↔ ∃ a ∈ l, 0 < w a := by
  induction l with
  | nil => simp
  | cons a l ih =>
      rw [tally_cons, List.exists_mem_cons_iff, ← ih]
      omega

/-- A list whose cells have no weight has none. -/
theorem tally_eq_zero {w : α → Nat} {l : List α} (h : ∀ a ∈ l, w a = 0) : tally w l = 0 := by
  refine Nat.eq_zero_of_not_pos (fun hpos => ?_)
  rcases (tally_pos_iff w l).mp hpos with ⟨a, ha, hw⟩
  rw [h a ha] at hw
  exact Nat.lt_irrefl 0 hw

/-- Where one cell at most is marked, the list weighs what this cell does, if no
    other has any weight. -/
theorem tally_eq_of_tally_le_one {u w : α → Nat} {l : List α} {i : Nat} {a : α}
    (ha : l[i]? = some a) (hone : tally u l ≤ 1) (hmark : u a = 1) (hw : ∀ b, u b = 0 → w b = 0) :
    tally w l = w a := by
  induction l generalizing i with
  | nil => cases ha
  | cons c l ih =>
      rw [tally_cons] at hone ⊢
      cases i with
      | zero =>
          rw [List.getElem?_cons_zero, Option.some.injEq] at ha
          have hrest : tally w l = 0 := tally_eq_zero (fun b hb => hw b (by
            have hle := le_tally u hb
            rw [ha] at hone
            omega))
          rw [hrest, ha, Nat.add_zero]
      | succ i =>
          rw [List.getElem?_cons_succ] at ha
          have hle := le_tally u (List.mem_of_getElem? ha)
          rw [ih ha (by omega), hw c (by omega), Nat.zero_add]

end BlogSample
