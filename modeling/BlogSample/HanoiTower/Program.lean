import BlogSample.DotNet
import BlogSample.Theory.Fuel
import BlogSample.Theory.Hanoi

/-!
# The Tower of Hanoi Sample

`Move` prints a line for each disc that is moved. The lines are what is proved
about: as moves on three pegs, they are the solution of the puzzle. A level
below `1` is never the last one of the recursion, so the call does not return.

## Main definitions

* `moveAction`: One line of the output.
* `move`: The function, with the lines it prints.

## Theorems

* `move_returns`: The lines are the moves of the solution.
* `move_zero`: Below the first level there is no return.
* `move_optimal`: They are legal, move the tower, and no legal way is shorter.
-/

namespace BlogSample

namespace HanoiTower

open DotNet Fuel Hanoi

/-- `MoveAction(level, source, target)`. -/
def moveAction (level : ℕ) (source target : Char) : Move Char :=
  { disc := level, source := source, target := target }

/-- `Move(level, source, auxiliary, target)`, with the lines in the order they are printed. -/
def move : ℕ → ℕ → Char → Char → Char → Call Exn (List (Move Char))
  | 0, _, _, _, _ => outOfFuel
  | fuel + 1, level, source, auxiliary, target =>
      if level = 1 then pure [moveAction level source target]
      else do
        let first ← move fuel (level - 1) source target auxiliary
        let last ← move fuel (level - 1) auxiliary source target
        pure (first ++ moveAction level source target :: last)

/-- What is printed is the solution of the puzzle. -/
theorem move_returns (n : ℕ) (source auxiliary target : Char) :
    ∀ fuel, n < fuel → Returns (move fuel (n + 1) source auxiliary target : Call Exn _)
      (solution (n + 1) source auxiliary target) := by
  induction n generalizing source auxiliary target with
  | zero =>
      refine forall_lt_of_succ (fun fuel _ => ?_)
      exact .pure _
  | succ n ih =>
      refine forall_lt_of_succ (fun fuel hfuel => ?_)
      rw [move, if_neg (by omega)]
      exact (ih source target auxiliary fuel hfuel).bind
        ((ih auxiliary source target fuel hfuel).bind (.pure _))

/-- From level `0` the recursion goes on below it. -/
theorem move_zero (fuel : ℕ) (source auxiliary target : Char) :
    (move fuel 0 source auxiliary target : Call Exn _) = outOfFuel := by
  induction fuel generalizing source auxiliary target with
  | zero => rfl
  | succ fuel ih =>
      rw [move, if_neg Nat.zero_ne_one, ih]
      rfl

/-- The moves that are printed are legal and take the tower from its source to its target, and no
    legal way to do so has fewer moves. -/
theorem move_optimal (level : ℕ) (hlevel : 1 ≤ level) (source auxiliary target : Char)
    (hsa : source ≠ auxiliary) (hst : source ≠ target) (hat : auxiliary ≠ target) :
    ∃ moves, Terminates (fun fuel => move fuel level source auxiliary target) moves ∧
      play ⟨source, auxiliary, target, hsa, hst, hat⟩ moves (tower level source) =
        some (tower level target) ∧
      moves.length = 2 ^ level - 1 ∧
      ∀ moves', play ⟨source, auxiliary, target, hsa, hst, hat⟩ moves' (tower level source) =
        some (tower level target) → moves.length ≤ moves'.length := by
  rcases Nat.exists_eq_add_of_le' hlevel with ⟨n, rfl⟩
  refine ⟨solution (n + 1) source auxiliary target, ⟨n, move_returns n source auxiliary target⟩,
    ?_, length_solution (n + 1) source auxiliary target, fun moves' hplay => ?_⟩
  · exact play_solution _ (n + 1) (.inl rfl) (.inr (.inl rfl)) (.inr (.inr rfl)) hsa hst hat
  · rw [length_solution]
    exact length_le_of_play (.inl rfl) (.inr (.inr rfl)) hst hplay

/-- The three discs of the sample. -/
theorem move_optimal_sample :
    ∃ moves, Terminates (fun fuel => move fuel 3 'A' 'B' 'C') moves ∧
      play ⟨'A', 'B', 'C', by decide, by decide, by decide⟩ moves (tower 3 'A') =
        some (tower 3 'C') ∧
      moves.length = 7 ∧
      ∀ moves', play ⟨'A', 'B', 'C', by decide, by decide, by decide⟩ moves' (tower 3 'A') =
        some (tower 3 'C') → moves.length ≤ moves'.length :=
  move_optimal 3 (by decide) 'A' 'B' 'C' (by decide) (by decide) (by decide)

end HanoiTower

end BlogSample
