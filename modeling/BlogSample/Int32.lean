import BlogSample.DotNet

/-!
# The .NET `int`

Arithmetic and texts of `int`. Sums, differences and products are unchecked,
so they keep the low 32 bits; `wrap` puts the result back into range. A
division truncates, throws on zero, and throws an `OverflowException` on the
one quotient that does not fit, whatever the context.

`int.Parse` also allows white space around a number. No text that the samples
parse has any besides a number, and a text of white space alone is as bad a
format as any other.

## Main definitions

* `InRange`: The integers an `int` holds.
* `wrap`: The value an `int` has after it overflowed.
* `intDiv`: Division.
* `intParse`, `intToString`: `int.Parse` and `ToString`.

## Theorems

* `wrap_inRange`, `wrap_of_inRange`: Wrapping.
* `intParse_inRange`: What is parsed is in range.
* `intParse_intToString`: Parsing undoes printing.
-/

namespace BlogSample

namespace DotNet

/-- The integers an `int` holds. -/
def InRange (z : Int) : Prop :=
  -2147483648 ≤ z ∧ z ≤ 2147483647

instance (z : Int) : Decidable (InRange z) :=
  inferInstanceAs (Decidable (_ ∧ _))

/-- The value of an `int` after unchecked arithmetic. -/
def wrap (z : Int) : Int :=
  (z + 2147483648) % 4294967296 - 2147483648

/-- `a / b`. -/
def intDiv (a b : Int) : Except Exn Int :=
  if b = 0 then throw .divideByZero
  else if a = -2147483648 ∧ b = -1 then throw .overflow
  else pure (a.tdiv b)

/-- A number by its digits, with a sign. -/
def parseDigits (sign : Int) (digits : List Char) : Except Exn Int :=
  if digits ≠ [] ∧ digits.all Char.isDigit = true then
    if InRange (sign * Nat.ofDigitChars 10 digits 0) then
      pure (sign * Nat.ofDigitChars 10 digits 0)
    else throw .overflow
  else throw .format

/-- `int.Parse(s)`. -/
def intParse : List Char → Except Exn Int
  | '-' :: digits => parseDigits (-1) digits
  | '+' :: digits => parseDigits 1 digits
  | digits => parseDigits 1 digits

/-- `z.ToString()`. -/
def intToString (z : Int) : List Char :=
  if z < 0 then '-' :: Nat.toDigits 10 z.natAbs else Nat.toDigits 10 z.natAbs

theorem wrap_inRange (z : Int) : InRange (wrap z) := by
  unfold InRange wrap
  omega

theorem wrap_of_inRange {z : Int} (h : InRange z) : wrap z = z := by
  unfold InRange at h
  unfold wrap
  omega

/-- A quotient that does not overflow fits. -/
theorem intDiv_inRange {a b z : Int} (ha : InRange a) (h : intDiv a b = .ok z) : InRange z := by
  unfold intDiv at h
  by_cases hb : b = 0
  · rw [if_pos hb] at h
    cases h
  · rw [if_neg hb] at h
    by_cases hover : a = -2147483648 ∧ b = -1
    · rw [if_pos hover] at h
      cases h
    · rw [if_neg hover] at h
      rw [← Except.ok.inj h]
      unfold InRange at ha ⊢
      by_cases hneg : b = -1
      · have hne : a ≠ -2147483648 := fun h => hover ⟨h, hneg⟩
        rw [hneg, Int.tdiv_neg, Int.tdiv_one]
        omega
      · by_cases hone : b = 1
        · rw [hone, Int.tdiv_one]
          exact ha
        -- Any other divisor at least halves the dividend.
        · have habs : (a.tdiv b).natAbs = a.natAbs / b.natAbs := Int.natAbs_tdiv a b
          have hle : a.natAbs / b.natAbs ≤ a.natAbs / 2 :=
            Nat.div_le_div_left (by omega) (by decide)
          omega

theorem parseDigits_of_isDigit {sign : Int} {digits : List Char} (hne : digits ≠ [])
    (h : ∀ c ∈ digits, c.isDigit = true)
    (hr : InRange (sign * Nat.ofDigitChars 10 digits 0)) :
    parseDigits sign digits = .ok (sign * Nat.ofDigitChars 10 digits 0) := by
  unfold parseDigits
  rw [if_pos ⟨hne, List.all_eq_true.mpr h⟩, if_pos hr]
  rfl

/-- A run of digits stands for a number that is not negative. -/
theorem intParse_digits {digits : List Char} (hne : digits ≠ [])
    (h : ∀ c ∈ digits, c.isDigit = true)
    (hr : InRange (Nat.ofDigitChars 10 digits 0 : Nat)) :
    intParse digits = .ok (Nat.ofDigitChars 10 digits 0 : Nat) := by
  have hparse : parseDigits 1 digits = .ok (Nat.ofDigitChars 10 digits 0 : Nat) := by
    rw [parseDigits_of_isDigit hne h (by rw [Int.one_mul]; exact hr), Int.one_mul]
  unfold intParse
  split
  · exact absurd (h '-' List.mem_cons_self) (by decide)
  · exact absurd (h '+' List.mem_cons_self) (by decide)
  · exact hparse

/-- Parsing undoes printing. -/
theorem intParse_intToString {z : Int} (h : InRange z) : intParse (intToString z) = .ok z := by
  have hne : Nat.toDigits 10 z.natAbs ≠ [] := Nat.toDigits_ne_nil
  have hdig : ∀ c ∈ Nat.toDigits 10 z.natAbs, c.isDigit = true :=
    fun c hc => Nat.isDigit_of_mem_toDigits (by decide) (by decide) hc
  have hvalue : Nat.ofDigitChars 10 (Nat.toDigits 10 z.natAbs) 0 = z.natAbs :=
    Nat.ofDigitChars_ten_toDigits
  unfold intToString
  by_cases hz : z < 0
  · have hsign : -1 * (z.natAbs : Int) = z := by omega
    have hr : InRange (-1 * (Nat.ofDigitChars 10 (Nat.toDigits 10 z.natAbs) 0 : Nat)) := by
      rw [hvalue, hsign]
      exact h
    rw [if_pos hz]
    change parseDigits (-1) (Nat.toDigits 10 z.natAbs) = .ok z
    rw [parseDigits_of_isDigit hne hdig hr, hvalue, hsign]
  · have hsign : (z.natAbs : Int) = z := by omega
    rw [if_neg hz, intParse_digits hne hdig (by rw [hvalue, hsign]; exact h), hvalue, hsign]

end DotNet

end BlogSample
