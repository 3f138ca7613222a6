import Mathlib.Data.List.Basic

/-!
# Self-Delimiting Codecs

Writing values into a byte stream so that a reader needs no length from
outside. The law of a codec says that reading takes back exactly the bytes
that writing put in front of whatever follows, which is what lets codecs be
put one after the other.

A count is written in unary, closed by a zero. That is no format anyone
stores, but it is the shortest one to read back, and a codec built here serves
where some codec is needed and its bytes do not matter.

## Main definitions

* `Codec`: A writer and a reader that undoes it in front of any suffix.
* `Codec.byte`, `Codec.count`: The codecs of a byte and of a number.
* `Codec.pair`, `Codec.list`: One value after another.
* `Codec.convert`: A codec carried over to another type.
-/

namespace BlogSample

/-- A self-delimiting encoding of values as bytes. -/
structure Codec (α : Type) where
  write : α → List UInt8
  read : List UInt8 → Option (α × List UInt8)
  read_write : ∀ a rest, read (write a ++ rest) = some (a, rest)

namespace Codec

/-- A byte stands for itself. -/
def byte : Codec UInt8 where
  write := fun b => [b]
  read := fun bytes =>
    match bytes with
    | b :: rest => some (b, rest)
    | [] => none
  read_write := fun _ _ => rfl

/-- Read a run of ones closed by a zero. -/
def readCount : List UInt8 → Option (Nat × List UInt8)
  | [] => none
  | b :: rest => if b = 0 then some (0, rest) else (readCount rest).map (fun p => (p.1 + 1, p.2))

/-- A number in unary. -/
def count : Codec Nat where
  write := fun n => List.replicate n 1 ++ [0]
  read := readCount
  read_write := by
    intro n rest
    induction n with
    | zero => rfl
    | succ n ih =>
        rw [List.replicate_succ, List.cons_append, List.cons_append, readCount, if_neg (by decide),
          ih]
        rfl

/-- One value after the other. -/
def pair {α β : Type} (a : Codec α) (b : Codec β) : Codec (α × β) where
  write := fun p => a.write p.1 ++ b.write p.2
  read := fun bytes =>
    (a.read bytes).bind (fun p => (b.read p.2).map (fun q => ((p.1, q.1), q.2)))
  read_write := by
    intro p rest
    rw [List.append_assoc, a.read_write, Option.bind_some, b.read_write]
    rfl

/-- Read a given number of values. -/
def readMany {α : Type} (a : Codec α) : Nat → List UInt8 → Option (List α × List UInt8)
  | 0, bytes => some ([], bytes)
  | n + 1, bytes =>
      (a.read bytes).bind (fun p => (readMany a n p.2).map (fun q => (p.1 :: q.1, q.2)))

theorem readMany_flatMap {α : Type} (a : Codec α) (l : List α) (rest : List UInt8) :
    readMany a l.length (l.flatMap a.write ++ rest) = some (l, rest) := by
  induction l with
  | nil => rfl
  | cons x l ih =>
      rw [List.flatMap_cons, List.append_assoc, List.length_cons, readMany, a.read_write,
        Option.bind_some, ih]
      rfl

/-- A list behind its length. -/
def list {α : Type} (a : Codec α) : Codec (List α) where
  write := fun l => count.write l.length ++ l.flatMap a.write
  read := fun bytes => (count.read bytes).bind (fun p => readMany a p.1 p.2)
  read_write := by
    intro l rest
    rw [List.append_assoc, count.read_write, Option.bind_some, readMany_flatMap]

/-- A codec carried over to a type whose values can be told from their
    images. -/
def convert {α β : Type} (a : Codec α) (f : β → α) (g : α → Option β)
    (h : ∀ b, g (f b) = some b) : Codec β where
  write := fun b => a.write (f b)
  read := fun bytes => (a.read bytes).bind (fun p => (g p.1).map (fun b => (b, p.2)))
  read_write := by
    intro b rest
    rw [a.read_write, Option.bind_some, h]
    rfl

end Codec

end BlogSample
