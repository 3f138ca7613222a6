import BlogSample.EightQueen.Program
import BlogSample.Theory.Backtracking
import Mathlib.Algebra.BigOperators.Fin

/-!
# The Count of Placements

`SearchQueen` counts the placements that agree with the rows above. A cell is only
looked at to the left and upwards: this is enough because the rows from the current
one on are empty, and every row above holds one queen.

Each call leaves the board as it found it, whatever is on it: a queen is put only
where none was found, and the cell itself is among those that are looked at.

## Main definitions

* `Peaceful`, `placements`: One queen in each row, none in the way of another.
* `PeacefulBelow`, `Placed`: The rows above the current one.

## Theorems

* `exists_sees_iff`: What is found from a cell below the rows above.
* `tryCell_returns`, `searchQueen_returns`: A cell and a row.
* `totalNQueens_exact`: The count, and the board.
-/

namespace BlogSample

namespace EightQueen

open DotNet Fuel Backtracking

variable {n : ℕ}

/-- Two queens, given by row and column, share neither a column nor a diagonal. -/
def Apart (i a j b : Int) : Prop :=
  a ≠ b ∧ a - b ≠ i - j ∧ a - b ≠ j - i

instance (i a j b : Int) : Decidable (Apart i a j b) :=
  inferInstanceAs (Decidable (a ≠ b ∧ a - b ≠ i - j ∧ a - b ≠ j - i))

/-- A column for each row, such that no two queens share a column or a diagonal. -/
def Peaceful (q : Fin n → Fin n) : Prop :=
  ∀ i j : Fin n, i ≠ j → Apart i.val (q i).val j.val (q j).val

instance : DecidablePred (Peaceful (n := n)) := fun q =>
  inferInstanceAs (Decidable (∀ i j : Fin n, i ≠ j → Apart i.val (q i).val j.val (q j).val))

/-- The ways to place the queens. -/
def placements (n : ℕ) : Finset (Fin n → Fin n) :=
  Finset.univ.filter Peaceful

/-- The queens in the first rows are not in the way of each other. -/
def PeacefulBelow (y : ℕ) (q : Fin n → Fin n) : Prop :=
  ∀ i j : Fin n, i ≠ j → i.val < y → j.val < y → Apart i.val (q i).val j.val (q j).val

/-- The board holds the queens of the first rows and no others. -/
def Placed (y : ℕ) (q : Fin n → Fin n) (board : Array2 Bool n n) : Prop :=
  ∀ i j : Fin n, board i j = true ↔ i.val < y ∧ q i = j

/-! ### The rows above -/

/-- From a cell of the current row, the queens above are found that are in its way. -/
theorem exists_sees_iff {y x : Fin n} {q : Fin n → Fin n} {board : Array2 Bool n n}
    (hboard : Placed y.val q board) :
    (∃ i j : Fin n, Sees y.val x.val i.val j.val ∧ board i j = true) ↔
      ∃ i : Fin n, i.val < y.val ∧ ¬ Apart y.val x.val i.val (q i).val := by
  unfold Sees Apart
  constructor
  · rintro ⟨i, j, hsees, hqueen⟩
    rcases (hboard i j).mp hqueen with ⟨hi, rfl⟩
    exact ⟨i, hi, by omega⟩
  · rintro ⟨i, hi, hway⟩
    exact ⟨i, q i, by omega, (hboard i (q i)).mpr ⟨hi, rfl⟩⟩

theorem Apart.symm {i a j b : Int} (h : Apart i a j b) : Apart j b i a := by
  unfold Apart at h ⊢
  omega

/-- A queen that is in nobody's way. -/
theorem PeacefulBelow.update {y : Fin n} {q : Fin n → Fin n} (h : PeacefulBelow y.val q) {x : Fin n}
    (hx : ∀ i : Fin n, i.val < y.val → Apart y.val x.val i.val (q i).val) :
    PeacefulBelow (y.val + 1) (Function.update q y x) := by
  intro i j hij hi hj
  have hlt {k : Fin n} (hk : k.val < y.val + 1) (hne : k ≠ y) : k.val < y.val := by
    have hval : k.val ≠ y.val := fun heq => hne (Fin.ext heq)
    omega
  by_cases hiy : i = y
  · have hjy : j ≠ y := fun hjy => hij (hiy.trans hjy.symm)
    rw [hiy, Function.update_self, Function.update_of_ne hjy]
    exact hx j (hlt hj hjy)
  · rw [Function.update_of_ne hiy]
    by_cases hjy : j = y
    · rw [hjy, Function.update_self]
      exact (hx i (hlt hi hiy)).symm
    · rw [Function.update_of_ne hjy]
      exact h i j hij (hlt hi hiy) (hlt hj hjy)

theorem Placed.write {y : Fin n} {q : Fin n → Fin n} {board : Array2 Bool n n}
    (h : Placed y.val q board) (x : Fin n) :
    Placed (y.val + 1) (Function.update q y x) (board.write y x true) := by
  intro i j
  rw [Array2.write_apply]
  by_cases hi : i = y
  · rw [hi, Function.update_self]
    by_cases hj : j = x
    · rw [if_pos ⟨rfl, hj⟩]
      exact iff_of_true rfl ⟨Nat.lt_succ_self _, hj.symm⟩
    -- The current row is empty before.
    · rw [if_neg (fun h => hj h.2), h y j]
      exact iff_of_false (fun hlt => Nat.lt_irrefl _ hlt.1) (fun heq => hj heq.2.symm)
  · have hval : i.val ≠ y.val := fun heq => hi (Fin.ext heq)
    rw [if_neg (fun h => hi h.1), h i j, Function.update_of_ne hi]
    refine and_congr_left (fun _ => ?_)
    omega

/-- No placement has a queen that is in the way of one above. -/
theorem completions_eq_empty {y x : Fin n} {q : Fin n → Fin n} {i : Fin n} (hi : i.val < y.val)
    (hway : ¬ Apart y.val x.val i.val (q i).val) :
    completions Peaceful (y.val + 1) (Function.update q y x) = ∅ := by
  refine Finset.eq_empty_of_forall_notMem (fun p hp => hway ?_)
  rcases mem_completions.mp hp with ⟨hpeace, hagree⟩
  rcases (agree_succ y.isLt p q x).mp hagree with ⟨habove, hx⟩
  have hne : y ≠ i := fun heq => by
    rw [heq] at hi
    exact Nat.lt_irrefl _ hi
  rw [← habove i hi, ← hx]
  exact hpeace y i hne

/-! ### Cells and rows -/

/-- What a call for the rows from `y` on does to any board: it adds to the count, by the number of
    placements if the board holds the queens of the rows above. -/
def Counts (y m : ℕ) (board : Array2 Bool n n)
    (call : ℕ → Int → Call Exn (Array2 Bool n n × Int)) (total : (Fin n → Fin n) → ℕ) : Prop :=
  ∃ k : ℕ, (∀ fuel, m < fuel → ∀ count : Int, Returns (call fuel count) (board, count + k)) ∧
    ∀ q, PeacefulBelow y q → Placed y q board → k = total q

/-- A cell of the current row, if the calls for the rows below count. -/
theorem tryCell_returns (board : Array2 Bool n n) {y x : Fin n} {m : ℕ}
    (hsearch : ∀ board : Array2 Bool n n, Counts (y.val + 1) m board
      (fun fuel count => searchQueen fuel board x.val (y.val + 1) count)
      (fun q => (completions Peaceful (y.val + 1) q).card)) :
    Counts y.val m board
      (fun fuel count =>
        tryCell (fun board x count => searchQueen fuel board x (y.val + 1) count) y.val
          (board, count) x.val)
      (fun q => (completions Peaceful (y.val + 1) (Function.update q y x)).card) := by
  rcases isContaineQueens_eq board y x with ⟨seen, hret, hseen⟩
  cases seen with
  | true =>
      -- The cell is passed over, and no placement has a queen there.
      refine ⟨0, fun fuel _ count => ?_, fun q _ hboard => ?_⟩
      · refine (Returns.lift hret).bind ?_
        rw [Int.natCast_zero, Int.add_zero]
        exact .pure _
      · rcases (exists_sees_iff hboard).mp (hseen.mp rfl) with ⟨i, hi, hway⟩
        exact (Finset.card_eq_zero.mpr (completions_eq_empty hi hway)).symm
  | false =>
      have hnone : ¬ ∃ i j : Fin n, Sees y.val x.val i.val j.val ∧ board i j = true :=
        fun h => Bool.false_ne_true (hseen.mpr h)
      -- The cell itself is seen, so the queen is taken from a cell that was empty.
      have hcell : board y x = false := by
        rw [← Bool.not_eq_true]
        exact fun hqueen => hnone ⟨y, x, .inl ⟨rfl, Int.le_refl _⟩, hqueen⟩
      have hrestore : (board.write y x true).write y x false = board := by
        rw [Array2.write_write, ← hcell, Array2.write_eq_self]
      rcases hsearch (board.write y x true) with ⟨k, hcall, hk⟩
      refine ⟨k, fun fuel hfuel count => ?_, fun q hq hboard => ?_⟩
      · refine (Returns.lift hret).bind ?_
        refine (Returns.lift (board.assign_fin y x true rfl rfl)).bind ?_
        refine (hcall fuel hfuel count).bind ?_
        refine (Returns.lift ((board.write y x true).assign_fin y x false rfl rfl)).bind ?_
        rw [hrestore]
        exact .pure _
      · refine hk _ (hq.update (fun i hi => ?_)) (hboard.write x)
        by_contra hway
        exact hnone ((exists_sees_iff hboard).mpr ⟨i, hi, hway⟩)

/-- A loop that adds something to the count for each column. -/
theorem foldlM_add {board : Array2 Bool n n}
    {step : Array2 Bool n n × Int → Int → Call Exn (Array2 Bool n n × Int)} {f : Fin n → ℕ}
    (hstep : ∀ (x : Fin n) (count : Int),
      Returns (step (board, count) x.val) (board, count + f x)) (L : List (Fin n)) (count : Int) :
    Returns ((L.map (fun x => (x.val : Int))).foldlM step (board, count))
      (board, count + (L.map f).sum) := by
  induction L generalizing count with
  | nil =>
      rw [List.map_nil, List.map_nil, List.sum_nil, Int.natCast_zero, Int.add_zero]
      exact .pure _
  | cons x L ih =>
      rw [List.map_cons, List.map_cons, List.sum_cons, Int.natCast_add, ← Int.add_assoc]
      exact (hstep x count).foldlM_cons (ih (count + f x))

theorem upTo_fin (n : ℕ) : upTo 0 n = (List.finRange n).map (fun x => (x.val : Int)) := by
  rw [upTo, Int.sub_zero, Int.toNat_natCast]
  refine List.ext_getElem ?_ (fun i hi hi' => ?_)
  · rw [List.length_map, List.length_map, List.length_range, List.length_finRange]
  · rw [List.getElem_map, List.getElem_map, List.getElem_range, List.getElem_finRange]
    exact Int.zero_add _

/-- A call for the rows from the current one on. -/
theorem searchQueen_returns (m : ℕ) {y : ℕ} (hy : y + m = n) (board : Array2 Bool n n) (x : Int) :
    Counts y m board (fun fuel count => searchQueen fuel board x y count)
      (fun q => (completions Peaceful y q).card) := by
  induction m generalizing y board x with
  | zero =>
      obtain rfl : y = n := hy
      -- All rows are filled, with a placement.
      refine ⟨1, forall_lt_of_succ (fun fuel _ count => ?_), fun q hq _ => ?_⟩
      · change Returns (searchQueen (fuel + 1) board x y count) _
        rw [searchQueen, if_pos (size_eq board).symm]
        exact .pure _
      · have hpeace : Peaceful q := fun i j hij => hq i j hij i.isLt j.isLt
        exact (card_completions_full hpeace).symm
  | succ m ih =>
      have hlt : y < n := by omega
      have hcell (x : Fin n) := tryCell_returns board (y := ⟨y, hlt⟩) (x := x) (m := m)
        (fun board => ih (y := y + 1) (by omega) board x.val)
      -- What each cell adds does not depend on the count that it is added to.
      choose f hcall htotal using hcell
      refine ⟨∑ x, f x, forall_lt_of_succ (fun fuel hfuel count => ?_), fun q hq hboard => ?_⟩
      · have hne : ¬ (y : Int) = size board := by
          rw [size_eq]
          omega
        change Returns (searchQueen (fuel + 1) board x y count) _
        rw [searchQueen, if_neg hne, size_eq, upTo_fin, Fin.sum_univ_def]
        exact foldlM_add (fun x count => hcall x fuel hfuel count) _ _
      · change _ = (completions Peaceful y q).card
        rw [card_completions hlt]
        exact Finset.sum_congr rfl (fun x _ => htotal x q hq hboard)

/-- `TotalNQueens` gives the number of placements, and `SearchQueen` leaves any board from any row
    on as it was. -/
theorem totalNQueens_exact (n : ℕ) :
    Terminates (totalNQueens n) ((placements n).card : Int) ∧
      ∀ (board : Array2 Bool n n) (x y count : Int), 0 ≤ y → y ≤ n → ∃ count',
        Terminates (fun fuel => searchQueen fuel board x y count) (board, count') := by
  constructor
  · rcases searchQueen_returns n (Nat.zero_add n) (fun _ _ => false) 0 with ⟨k, hcall, hk⟩
    have htotal : k = (completions Peaceful 0 (id : Fin n → Fin n)).card :=
      hk id (fun i j _ hi => absurd hi (Nat.not_lt_zero _))
        (fun i j => iff_of_false Bool.false_ne_true (fun h => Nat.not_lt_zero _ h.1))
    rw [completions_zero] at htotal
    refine ⟨n, fun fuel hfuel => ?_⟩
    have hret := hcall fuel hfuel 0
    rw [htotal, Int.zero_add] at hret
    rw [totalNQueens, if_neg (by omega)]
    exact hret.bind (.pure _)
  · intro board x y count hy hyn
    rcases searchQueen_returns (n - y.toNat) (y := y.toNat) (by omega) board x with ⟨k, hcall, -⟩
    rw [Int.toNat_of_nonneg hy] at hcall
    exact ⟨count + k, n - y.toNat, fun fuel hfuel => hcall fuel hfuel count⟩

end EightQueen

end BlogSample
