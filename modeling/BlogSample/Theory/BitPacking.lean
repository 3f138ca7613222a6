import Mathlib.Data.List.TakeDrop
import Mathlib.Data.List.TakeWhile
import Mathlib.Tactic.Ring

/-!
# Bits, Words and Positional Notation

Moving between a list of bits and the words that store it. Words are filled
from their least significant bit, so the first bit of a group is the lowest
bit of its word; printing a word writes its highest bit first and leaves out
the leading zeros.

A packed list is cut into groups of `w` bits. Every group but the last is
full, and reading a full word back at its full width recovers its group. The
last group is the only one that can be short, and a reader who knows how short
it is recovers it by padding the printed digits: `leftpad_binary_ofBits`. A
reader who does not pad loses exactly the leading zeros.

## Main definitions

* `ofBits`: The number with the given bits, lowest first.
* `lowBits`: The lowest bits of a number, lowest first.
* `binary`: The printed binary digits of a number, highest first.
* `chunk`: One group of a packed list.
* `pack`: A list of bits packed into words.

## Theorems

* `lowBits_ofBits`: Reading back as many bits as were stored.
* `ofBits_append_true`: A set bit above a group adds a power of two.
* `leftpad_binary_ofBits`: Padding the printed digits restores the group.
* `binary_ofBits_of_last`: A set highest bit is printed without padding.
* `binary_ofBits_length_lt`: A clear highest bit is lost without padding.
* `flatten_chunks`: The groups concatenate to the list.
* `pack_eq`: Only the last word holds a short group.
-/

namespace BlogSample

namespace BitPacking

/-- The number with the given bits, lowest first. -/
def ofBits : List Bool → Nat
  | [] => 0
  | b :: bs => b.toNat + 2 * ofBits bs

/-- The `w` lowest bits of a number, lowest first. -/
def lowBits : Nat → Nat → List Bool
  | 0, _ => []
  | w + 1, n => decide (n % 2 = 1) :: lowBits w (n / 2)

/-- The printed binary digits of a number below `2 ^ w`: highest first and
    without leading zeros, zero being the single digit zero. -/
def binary (w n : Nat) : List Bool :=
  match (lowBits w n).reverse.dropWhile (fun b => !b) with
  | [] => [false]
  | ds => ds

@[simp]
theorem length_lowBits (w n : Nat) : (lowBits w n).length = w := by
  induction w generalizing n with
  | zero => rfl
  | succ w ih => simp only [lowBits, List.length_cons, ih]

theorem ofBits_lt (bs : List Bool) : ofBits bs < 2 ^ bs.length := by
  induction bs with
  | nil => simp only [ofBits, List.length_nil, pow_zero, Nat.lt_one_iff]
  | cons b bs ih =>
      have hb : b.toNat ≤ 1 := Bool.toNat_le b
      simp only [ofBits, List.length_cons, pow_succ]
      omega

theorem lowBits_zero (w : Nat) : lowBits w 0 = List.replicate w false := by
  induction w with
  | zero => rfl
  | succ w ih =>
      simp only [lowBits, Nat.zero_mod, Nat.zero_div, ih, List.replicate_succ]
      rfl

/-- Reading back more bits than were stored adds zeros above them. -/
theorem lowBits_ofBits (bs : List Bool) :
    ∀ w, bs.length ≤ w → lowBits w (ofBits bs) = bs ++ List.replicate (w - bs.length) false := by
  induction bs with
  | nil =>
      intro w _
      simp only [ofBits, lowBits_zero, List.length_nil, Nat.sub_zero, List.nil_append]
  | cons b bs ih =>
      intro w hw
      cases w with
      | zero => simp only [List.length_cons, Nat.le_zero_eq, Nat.succ_ne_zero] at hw
      | succ w =>
          have hle : bs.length ≤ w := by
            simpa only [List.length_cons, Nat.add_le_add_iff_right] using hw
          have hdiv : (b.toNat + 2 * ofBits bs) / 2 = ofBits bs := by
            have := Bool.toNat_le b
            omega
          have hmod : decide ((b.toNat + 2 * ofBits bs) % 2 = 1) = b := by
            cases b <;> simp only [Bool.toNat_false, Bool.toNat_true] <;>
              simp [Nat.add_mul_mod_self_left]
          simp only [lowBits, ofBits, hdiv, ih w hle, List.length_cons, List.cons_append,
            Nat.add_sub_add_right]
          exact List.cons_eq_cons.mpr ⟨hmod, rfl⟩

/-- One more set bit above a group adds the power of two at its width. -/
theorem ofBits_append_true (bs : List Bool) :
    ofBits (bs ++ [true]) = ofBits bs + 2 ^ bs.length := by
  induction bs with
  | nil => rfl
  | cons b bs ih =>
      simp only [List.cons_append, ofBits, ih, List.length_cons, pow_succ]
      ring

/-- The printed digits of a stored group are the group without its highest
    zeros, whatever width at least its own it is printed at. -/
theorem dropWhile_lowBits_ofBits (bs : List Bool) (w : Nat) (h : bs.length ≤ w) :
    (lowBits w (ofBits bs)).reverse.dropWhile (fun b => !b)
      = bs.reverse.dropWhile (fun b => !b) := by
  rw [lowBits_ofBits bs w h, List.reverse_append, List.reverse_replicate]
  -- The extra zeros stand in front once the digits are highest first.
  rw [List.dropWhile_append_of_pos]
  intro b hb
  rw [List.eq_of_mem_replicate hb]
  rfl

theorem takeWhile_zeros (ds : List Bool) :
    ds.takeWhile (fun b => !b) = List.replicate (ds.takeWhile (fun b => !b)).length false := by
  refine List.eq_replicate_of_mem (fun b hb => ?_)
  have := List.mem_takeWhile_imp hb
  simpa only [Bool.not_eq_true'] using this

/-- Padding the printed digits to the width of the group restores it. -/
theorem leftpad_binary_ofBits (bs : List Bool) (w : Nat) (hne : bs ≠ []) (h : bs.length ≤ w) :
    List.leftpad bs.length false (binary w (ofBits bs)) = bs.reverse := by
  have hsplit := List.takeWhile_append_dropWhile (p := fun b => !b) (l := bs.reverse)
  have hlen := congrArg List.length hsplit
  rw [List.length_append, List.length_reverse] at hlen
  have hpos : 0 < bs.length := List.length_pos_iff.mpr hne
  rw [List.leftpad, binary, dropWhile_lowBits_ofBits bs w h]
  cases hds : bs.reverse.dropWhile (fun b => !b) with
  | nil =>
      -- Every bit is zero, and one zero is printed.
      rw [hds, List.append_nil] at hsplit
      rw [hds, List.length_nil, Nat.add_zero] at hlen
      rw [takeWhile_zeros, hlen] at hsplit
      rw [← hsplit, ← List.replicate_succ']
      congr 1
      simp only [List.length_cons, List.length_nil]
      omega
  | cons d ds =>
      rw [hds, takeWhile_zeros] at hsplit
      rw [hds] at hlen
      have hzeros : bs.length - (d :: ds).length
          = (bs.reverse.takeWhile (fun b => !b)).length := by omega
      simp only [hzeros]
      exact hsplit

/-- A group whose highest bit is set is printed in full. -/
theorem binary_ofBits_of_last (bs : List Bool) (w : Nat) (h : bs.length ≤ w)
    (hlast : bs.reverse.head? = some true) : binary w (ofBits bs) = bs.reverse := by
  rw [binary, dropWhile_lowBits_ofBits bs w h]
  cases hr : bs.reverse with
  | nil => rw [hr] at hlast; exact absurd hlast (by simp only [List.head?_nil, reduceCtorEq,
      not_false_eq_true])
  | cons d ds =>
      rw [hr, List.head?_cons, Option.some.injEq] at hlast
      simp only [hlast, List.dropWhile_cons, Bool.not_true, Bool.false_eq_true, if_false]

/-- A group of several bits whose highest bit is clear is printed short. -/
theorem binary_ofBits_length_lt (bs : List Bool) (w : Nat) (h : bs.length ≤ w)
    (htwo : 2 ≤ bs.length) (hlast : bs.reverse.head? = some false) :
    (binary w (ofBits bs)).length < bs.length := by
  rw [binary, dropWhile_lowBits_ofBits bs w h]
  cases hr : bs.reverse with
  | nil => rw [hr] at hlast; exact absurd hlast (by simp only [List.head?_nil, reduceCtorEq,
      not_false_eq_true])
  | cons d ds =>
      rw [hr, List.head?_cons, Option.some.injEq] at hlast
      have hlen : ds.length + 1 = bs.length := by
        have hrev := congrArg List.length hr
        rw [List.length_reverse, List.length_cons] at hrev
        exact hrev.symm
      have hdrop : (ds.dropWhile (fun b => !b)).length ≤ ds.length :=
        (List.dropWhile_suffix _).length_le
      simp only [hlast, List.dropWhile_cons, Bool.not_false, if_true]
      cases hd : ds.dropWhile (fun b => !b) with
      | nil => simp only [List.length_cons, List.length_nil]; omega
      | cons e es => rw [hd] at hdrop; simp only []; omega

/-- The `i`-th group of `w` items. -/
def chunk {α : Type*} (w i : Nat) (l : List α) : List α :=
  (l.drop (w * i)).take w

/-- A list of bits packed into words of `w` bits, the last one padded with
    zeros above. -/
def pack (w : Nat) (bs : List Bool) : List Nat :=
  (List.range ((bs.length + (w - 1)) / w)).map (fun i => ofBits (chunk w i bs))

/-- The first groups concatenate to the part of the list they cover. -/
theorem flatten_chunks {α : Type*} (w k : Nat) (l : List α) :
    ((List.range k).map (fun i => chunk w i l)).flatten = l.take (w * k) := by
  induction k with
  | zero =>
      simp only [List.range_zero, List.map_nil, List.flatten_nil, Nat.mul_zero, List.take_zero]
  | succ k ih =>
      rw [List.range_succ, List.map_append, List.flatten_append, ih, Nat.mul_succ, List.take_add]
      simp only [List.map_cons, List.map_nil, List.flatten_cons, List.flatten_nil, List.append_nil,
        chunk]

/-- A group that lies inside the list is full. -/
theorem length_chunk {α : Type*} (w i : Nat) (l : List α) (h : w * (i + 1) ≤ l.length) :
    (chunk w i l).length = w := by
  rw [Nat.mul_succ] at h
  rw [chunk, List.length_take, List.length_drop]
  omega

/-- Only the last word of a packed list can hold a short group: `k` words
    are full, and what is left, between one bit and a full group, is in one
    more. -/
theorem pack_eq (w : Nat) (bs : List Bool) (hw : 0 < w) (hne : bs ≠ []) :
    ∃ k, bs.length = w * k + (bs.drop (w * k)).length ∧ 0 < (bs.drop (w * k)).length ∧
      (bs.drop (w * k)).length ≤ w ∧
      pack w bs = (List.range k).map (fun i => ofBits (chunk w i bs)) ++
        [ofBits (bs.drop (w * k))] := by
  have hpos : 0 < bs.length := List.length_pos_iff.mpr hne
  have hdiv : (bs.length + (w - 1)) / w = (bs.length - 1) / w + 1 := by
    rw [show bs.length + (w - 1) = bs.length - 1 + w by omega, Nat.add_div_right _ hw]
  have hq := Nat.div_add_mod (bs.length - 1) w
  have hr := Nat.mod_lt (bs.length - 1) hw
  refine ⟨(bs.length - 1) / w, ?_, ?_, ?_, ?_⟩
  · rw [List.length_drop]; omega
  · rw [List.length_drop]; omega
  · rw [List.length_drop]; omega
  · have hlast : chunk w ((bs.length - 1) / w) bs = bs.drop (w * ((bs.length - 1) / w)) := by
      rw [chunk, List.take_of_length_le]
      rw [List.length_drop]
      omega
    rw [pack, hdiv, List.range_succ, List.map_append, List.map_cons, List.map_nil, hlast]

end BitPacking

end BlogSample
