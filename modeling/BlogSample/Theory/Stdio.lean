import Mathlib.Data.List.TakeWhile

/-!
# Lines and Strings of C

`fgets` and strings that end at a zero. A stream is the characters that are
still to be read. A buffer that `fgets` has filled is given by the characters
it has stored; behind them stands a zero, and what the buffer held there before
is not seen by anybody who reads a string.

Where the stream has no zero, `fgets` takes it apart and a string is what was
stored, so that nothing is lost in between.

## Main definitions

* `readLine`, `fgets`: Reading up to the end of a line or of the buffer.
* `cstring`: The string in a buffer.

## Theorems

* `fgets_append`: What is read and what is left make up the stream.
* `fgets_eq_none_iff`: When there is nothing to read.
* `cstring_eq_self_iff`: A string without a zero is all of it.
-/

namespace BlogSample

namespace Stdio

/-- At most `n` characters, up to the end of the line, and the rest. -/
def readLine : Nat → List Char → List Char × List Char
  | 0, cs => ([], cs)
  | _ + 1, [] => ([], [])
  | n + 1, c :: cs =>
      if c = '\n' then ([c], cs)
      else (c :: (readLine n cs).1, (readLine n cs).2)

/-- What `fgets` stores in a buffer of a size, and what is left of the stream;
    `none` at the end of the stream, where the buffer stays as it is. -/
def fgets (size : Nat) (stdin : List Char) : Option (List Char × List Char) :=
  if stdin = [] then none else some (readLine (size - 1) stdin)

/-- The string in a buffer. -/
def cstring (buffer : List Char) : List Char :=
  buffer.takeWhile (· ≠ '\x00')

theorem readLine_append (n : Nat) (cs : List Char) :
    (readLine n cs).1 ++ (readLine n cs).2 = cs := by
  induction n generalizing cs with
  | zero => rfl
  | succ n ih =>
      cases cs with
      | nil => rfl
      | cons c cs =>
          unfold readLine
          split
          · rfl
          · exact congrArg (c :: ·) (ih cs)

section Fgets

variable {size : Nat} {stdin line rest : List Char}

/-- What is read and what is left make up the stream. -/
theorem fgets_append (h : fgets size stdin = some (line, rest)) : line ++ rest = stdin := by
  unfold fgets at h
  split at h
  · cases h
  · rw [Option.some.injEq] at h
    rw [← readLine_append (size - 1) stdin, h]

theorem fgets_eq_none_iff : fgets size stdin = none ↔ stdin = [] := by
  unfold fgets
  split
  · next h => exact iff_of_true rfl h
  · next h => exact iff_of_false (Option.some_ne_none _) h

end Fgets

/-- A buffer without a zero is a string as a whole. -/
theorem cstring_eq_self_iff (buffer : List Char) : cstring buffer = buffer ↔ '\x00' ∉ buffer := by
  unfold cstring
  rw [List.takeWhile_eq_self_iff]
  constructor
  · intro h hmem
    exact absurd rfl (of_decide_eq_true (h _ hmem))
  · intro h c hc
    exact decide_eq_true (fun heq => h (heq ▸ hc))

end Stdio

end BlogSample
