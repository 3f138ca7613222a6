import BlogSample.Array2
import BlogSample.Theory.Fuel
import Mathlib.Data.Nat.Sqrt

/-!
# The Eight Queens

`Solution`, which counts the ways to place queens row by row. A cell is looked at
from four sides: to the left in its row, upwards in its column, and along the two
diagonals upwards. Each of the four loops begins at the cell itself.

The size of the board is the root of its length, which is taken to be exact, and
the count has no bound.

## Main definitions

* `isContaineQueens`, `searchQueen`, `totalNQueens`: The functions.
* `Sees`: The cells that are looked at.

## Theorems

* `anyQueen_eq`: What a loop finds.
* `isContaineQueens_eq`: What is found from a cell.
-/

namespace BlogSample

namespace EightQueen

open DotNet Fuel

variable {rows cols : ℕ}

/-- A loop over some cells that ends at the first one with a queen. -/
def anyQueen (board : Array2 Bool rows cols) (cells : List (Int × Int)) : Except Exn Bool :=
  cells.anyM (fun c => board.item c.1 c.2)

/-- `(int)Math.Sqrt(board.Length)`. -/
def size (board : Array2 Bool rows cols) : Int :=
  Nat.sqrt board.length

/-- `IsContaineQueens(board, xPos, yPos)`. A loop with two variables ends when one of them
    leaves the board. -/
def isContaineQueens (board : Array2 Bool rows cols) (xPos yPos : Int) : Except Exn Bool := do
  let n := size board
  let left ← anyQueen board ((downFrom xPos).map (fun x => (yPos, x)))
  if left then return true
  let up ← anyQueen board ((downFrom yPos).map (fun y => (y, xPos)))
  if up then return true
  let upLeft ← anyQueen board ((downFrom yPos).zip (downFrom xPos))
  if upLeft then return true
  let upRight ← anyQueen board ((downFrom yPos).zip (upTo xPos n))
  if upRight then return true
  return false

/-- The body of the loop over `x`, with the call for the next row. -/
def tryCell (search : Array2 Bool rows cols → Int → Int → Call Exn (Array2 Bool rows cols × Int))
    (yPos : Int) (s : Array2 Bool rows cols × Int) (x : Int) :
    Call Exn (Array2 Bool rows cols × Int) := do
  let seen ← isContaineQueens s.1 x yPos
  if seen then
    pure s
  else
    let board ← s.1.assign yPos x true
    let (board, count) ← search board x s.2
    -- The queen is taken away again.
    let board ← board.assign yPos x false
    pure (board, count)

/-- `SearchQueen(board, xPos, yPos, ref count)`, with the board and the count after it. -/
def searchQueen : ℕ → Array2 Bool rows cols → Int → Int → Int →
    Call Exn (Array2 Bool rows cols × Int)
  | 0, _, _, _, _ => outOfFuel
  | fuel + 1, board, _, yPos, count =>
      let n := size board
      if yPos = n then pure (board, count + 1)
      else
        (upTo 0 n).foldlM
          (tryCell (fun board x count => searchQueen fuel board x (yPos + 1) count) yPos)
          (board, count)

/-- `TotalNQueens(n)`. -/
def totalNQueens (n : Int) (fuel : ℕ) : Call Exn Int := do
  if n < 0 then throw .overflow
  let board : Array2 Bool n.toNat n.toNat := fun _ _ => false
  let s ← searchQueen fuel board 0 0 0
  pure s.2

/-! ### What is found from a cell -/

/-- The cells that are looked at from a cell: to the left, upwards, and on the diagonals. -/
def Sees (y x i j : Int) : Prop :=
  i = y ∧ j ≤ x ∨ j = x ∧ i ≤ y ∨ i ≤ y ∧ y - i = x - j ∨ i ≤ y ∧ y - i = j - x

theorem anyQueen_eq (board : Array2 Bool rows cols) {cells : List (Int × Int)}
    (h : ∀ c ∈ cells, ∃ (i : Fin rows) (j : Fin cols), c = ((i.val : Int), (j.val : Int))) :
    ∃ b, anyQueen board cells = .ok b ∧ (b = true ↔
      ∃ (i : Fin rows) (j : Fin cols), ((i.val : Int), (j.val : Int)) ∈ cells ∧
        board i j = true) := by
  unfold anyQueen
  induction cells with
  | nil =>
      refine ⟨false, rfl, iff_of_false Bool.false_ne_true ?_⟩
      rintro ⟨i, j, hmem, -⟩
      exact List.not_mem_nil hmem
  | cons c cells ih =>
      rcases List.forall_mem_cons.mp h with ⟨⟨i, j, rfl⟩, hrest⟩
      rcases ih hrest with ⟨b, hb, hiff⟩
      rw [List.anyM_cons, board.item_fin i j rfl rfl]
      cases hqueen : board i j with
      | true =>
          -- The loop ends here.
          exact ⟨true, rfl, iff_of_true rfl ⟨i, j, List.mem_cons_self, hqueen⟩⟩
      | false =>
          refine ⟨b, hb, hiff.trans ?_⟩
          constructor
          · rintro ⟨k, l, hmem, hkl⟩
            exact ⟨k, l, List.mem_cons_of_mem _ hmem, hkl⟩
          · rintro ⟨k, l, hmem, hkl⟩
            rcases List.mem_cons.mp hmem with heq | hmem
            -- The cell itself has no queen.
            · rw [Prod.mk.injEq, Int.natCast_inj, Int.natCast_inj] at heq
              rw [Fin.ext heq.1, Fin.ext heq.2, hqueen] at hkl
              cases hkl
            · exact ⟨k, l, hmem, hkl⟩

/-- The cells of a loop are on the board. -/
theorem exists_fin {c : Int × Int} {n : ℕ} (h : (0 ≤ c.1 ∧ c.1 < n) ∧ 0 ≤ c.2 ∧ c.2 < n) :
    ∃ i j : Fin n, c = ((i.val : Int), (j.val : Int)) := by
  refine ⟨⟨c.1.toNat, by omega⟩, ⟨c.2.toNat, by omega⟩, Prod.ext ?_ ?_⟩
  · exact (Int.toNat_of_nonneg h.1.1).symm
  · exact (Int.toNat_of_nonneg h.2.1).symm

theorem size_eq {n : ℕ} (board : Array2 Bool n n) : size board = n := by
  rw [size, Array2.length, Nat.sqrt_eq]

theorem mem_left {y x : Int} {c : Int × Int} :
    c ∈ (downFrom x).map (fun j => (y, j)) ↔ c.1 = y ∧ 0 ≤ c.2 ∧ c.2 ≤ x := by
  rw [List.mem_map]
  constructor
  · rintro ⟨j, hj, rfl⟩
    exact ⟨rfl, mem_downFrom.mp hj⟩
  · rintro ⟨hi, hj⟩
    exact ⟨c.2, mem_downFrom.mpr hj, Prod.ext hi.symm rfl⟩

theorem mem_up {y x : Int} {c : Int × Int} :
    c ∈ (downFrom y).map (fun i => (i, x)) ↔ c.2 = x ∧ 0 ≤ c.1 ∧ c.1 ≤ y := by
  rw [List.mem_map]
  constructor
  · rintro ⟨i, hi, rfl⟩
    exact ⟨rfl, mem_downFrom.mp hi⟩
  · rintro ⟨hj, hi⟩
    exact ⟨c.1, mem_downFrom.mpr hi, Prod.ext rfl hj.symm⟩

theorem mem_upLeft {y x : Int} {c : Int × Int} : c ∈ (downFrom y).zip (downFrom x) ↔
    0 ≤ c.1 ∧ 0 ≤ c.2 ∧ c.1 ≤ y ∧ y - c.1 = x - c.2 := by
  rw [downFrom, downFrom, mem_zip_range]
  constructor
  · rintro ⟨k, hk, hk', rfl⟩
    dsimp only
    omega
  · intro h
    refine ⟨(y - c.1).toNat, by omega, by omega, Prod.ext ?_ ?_⟩
    · dsimp only
      omega
    · dsimp only
      omega

theorem mem_upRight {y x n : Int} {c : Int × Int} : c ∈ (downFrom y).zip (upTo x n) ↔
    0 ≤ c.1 ∧ c.2 < n ∧ c.1 ≤ y ∧ y - c.1 = c.2 - x := by
  rw [downFrom, upTo, mem_zip_range]
  constructor
  · rintro ⟨k, hk, hk', rfl⟩
    dsimp only
    omega
  · intro h
    refine ⟨(y - c.1).toNat, by omega, by omega, Prod.ext ?_ ?_⟩
    · dsimp only
      omega
    · dsimp only
      omega

/-- From a cell of a square board, the queens are found that can be seen there. -/
theorem isContaineQueens_eq {n : ℕ} (board : Array2 Bool n n) (y x : Fin n) :
    ∃ b, isContaineQueens board x.val y.val = .ok b ∧
      (b = true ↔ ∃ i j : Fin n, Sees y.val x.val i.val j.val ∧ board i j = true) := by
  have hy := y.isLt
  have hx := x.isLt
  -- None of the four loops leaves the board.
  have hin {cells : List (Int × Int)}
      (hcells : ∀ c ∈ cells, (0 ≤ c.1 ∧ c.1 < n) ∧ 0 ≤ c.2 ∧ c.2 < n) :=
    anyQueen_eq board (fun c hc => exists_fin (hcells c hc))
  rcases hin (fun c (hc : c ∈ (downFrom x.val).map (fun j => ((y.val : Int), j))) => by
    rw [mem_left] at hc; omega) with ⟨left, hleft, hleft'⟩
  rcases hin (fun c (hc : c ∈ (downFrom y.val).map (fun i => (i, (x.val : Int)))) => by
    rw [mem_up] at hc; omega) with ⟨up, hup, hup'⟩
  rcases hin (fun c (hc : c ∈ (downFrom y.val).zip (downFrom x.val)) => by
    rw [mem_upLeft] at hc; omega) with ⟨upLeft, hupLeft, hupLeft'⟩
  rcases hin (fun c (hc : c ∈ (downFrom y.val).zip (upTo x.val n)) => by
    rw [mem_upRight] at hc; omega) with ⟨upRight, hupRight, hupRight'⟩
  refine ⟨left || up || upLeft || upRight, ?_, ?_⟩
  · rw [isContaineQueens, size_eq, hleft]
    cases left
    · change (anyQueen board _ >>= _) = _
      rw [hup]
      cases up
      · change (anyQueen board _ >>= _) = _
        rw [hupLeft]
        cases upLeft
        · change (anyQueen board _ >>= _) = _
          rw [hupRight]
          cases upRight
          · rfl
          · rfl
        · rfl
      · rfl
    -- The first loop that finds a queen ends the call.
    · rfl
  -- Each loop covers one of the ways in which a cell can be seen.
  · rw [Bool.or_eq_true, Bool.or_eq_true, Bool.or_eq_true, hleft', hup', hupLeft', hupRight']
    simp only [mem_left, mem_up, mem_upLeft, mem_upRight]
    constructor
    · rintro (((⟨i, j, hc, hqueen⟩ | ⟨i, j, hc, hqueen⟩) | ⟨i, j, hc, hqueen⟩) |
        ⟨i, j, hc, hqueen⟩)
      · exact ⟨i, j, .inl ⟨hc.1, hc.2.2⟩, hqueen⟩
      · exact ⟨i, j, .inr (.inl ⟨hc.1, hc.2.2⟩), hqueen⟩
      · exact ⟨i, j, .inr (.inr (.inl ⟨hc.2.2.1, hc.2.2.2⟩)), hqueen⟩
      · exact ⟨i, j, .inr (.inr (.inr ⟨hc.2.2.1, hc.2.2.2⟩)), hqueen⟩
    · rintro ⟨i, j, hsees, hqueen⟩
      have hj := j.isLt
      rcases hsees with h | h | h | h
      · exact .inl (.inl (.inl ⟨i, j, ⟨h.1, by omega, h.2⟩, hqueen⟩))
      · exact .inl (.inl (.inr ⟨i, j, ⟨h.1, by omega, h.2⟩, hqueen⟩))
      · exact .inl (.inr ⟨i, j, ⟨by omega, by omega, h.1, h.2⟩, hqueen⟩)
      · exact .inr ⟨i, j, ⟨by omega, by omega, h.1, h.2⟩, hqueen⟩

end EightQueen

end BlogSample
