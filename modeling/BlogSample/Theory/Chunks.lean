import Mathlib.Data.List.Basic

/-!
# Lists in Chunks

A list cut into pieces of one size, where the last one may be shorter. The
chunk with an index starts at that many times the size, and there are as many
chunks as the length divided by the size, rounded up.

## Main definitions

* `count`: The number of chunks.
* `chunk`: The chunk with an index.

## Theorems

* `lt_count_iff`: The indices whose chunk starts within the list.
* `chunk_ne_nil`, `length_chunk_le`: The length of a chunk.
* `flatten_chunks`: The chunks in the order of their indices are the list.
-/

namespace BlogSample

namespace Chunks

variable {α : Type}

/-- The number of chunks of a list. -/
def count (size len : ℕ) : ℕ :=
  (len + (size - 1)) / size

/-- The chunk with an index. -/
def chunk (size : ℕ) (l : List α) (i : ℕ) : List α :=
  (l.drop (i * size)).take size

theorem lt_count_iff {size : ℕ} (hsize : 0 < size) (len i : ℕ) :
    i < count size len ↔ i * size < len := by
  rw [count, ← Nat.succ_le_iff, Nat.le_div_iff_mul_le hsize, Nat.succ_mul]
  omega

theorem count_eq_zero_iff {size : ℕ} (hsize : 0 < size) (len : ℕ) :
    count size len = 0 ↔ len = 0 := by
  have h := lt_count_iff hsize len 0
  rw [Nat.zero_mul] at h
  omega

theorem length_chunk_le (size : ℕ) (l : List α) (i : ℕ) : (chunk size l i).length ≤ size :=
  List.length_take_le ..

theorem chunk_ne_nil {size : ℕ} (hsize : 0 < size) {l : List α} {i : ℕ}
    (h : i < count size l.length) : chunk size l i ≠ [] := by
  rw [lt_count_iff hsize] at h
  rw [← List.length_pos_iff, chunk, List.length_take, List.length_drop]
  omega

/-- What is cut between two positions is the chunk with an index. -/
theorem slice_eq_chunk (size : ℕ) (l : List α) (i : ℕ) :
    (l.drop (i * size)).take (min (i * size + size) l.length - i * size) = chunk size l i := by
  rw [chunk, List.take_eq_take_iff, List.length_drop]
  omega

/-- The first chunks are the first part of the list. -/
theorem flatten_take (size : ℕ) (l : List α) (n : ℕ) :
    ((List.range n).map (chunk size l)).flatten = l.take (n * size) := by
  induction n with
  | zero => rw [Nat.zero_mul, List.take_zero, List.range_zero, List.map_nil, List.flatten_nil]
  | succ n ih =>
      rw [List.range_succ, List.map_append, List.flatten_append, ih, Nat.succ_mul, List.take_add,
        List.map_singleton, List.flatten_singleton, chunk]

/-- Together the chunks are the list. -/
theorem flatten_chunks {size : ℕ} (hsize : 0 < size) (l : List α) :
    ((List.range (count size l.length)).map (chunk size l)).flatten = l := by
  have h := lt_count_iff hsize l.length (count size l.length)
  rw [flatten_take]
  exact List.take_of_length_le (by omega)

end Chunks

end BlogSample
