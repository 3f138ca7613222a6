import BlogSample.Theory.Matching

/-!
# Borders

A border of a word is a beginning of it that is shorter than the word and that the
word also ends with. The longest one tells what is left of a match when the word
does not go on.

With one more character the longest border grows by that character if the border
goes on with it. If it does not, the next shorter border has to be tried, and so
on; only if there is no border, there is nothing to try but the beginning.

## Main definitions

* `border`: The longest border of a word.

## Theorems

* `border_concat_of_eq`: The border goes on.
* `border_concat_of_zero`: There is no border, and none begins.
* `border_concat_le`: The border does not grow by more than a character.
* `overlap_tail_take`: A border as what two parts of a pattern have in common.
* `Table.faithful_of_border`: The table that falls back to the borders is faithful.
-/

namespace BlogSample

namespace Matching

universe u

variable {α : Type u} [DecidableEq α] {w : List α} {c : α}

/-- The length of the longest beginning of a word that is shorter than the word and that the
    word ends with. -/
def border (w : List α) : ℕ :=
  Nat.findGreatest (fun k => w.take k <:+ w) (w.length - 1)

theorem border_le (w : List α) : border w ≤ w.length - 1 :=
  Nat.findGreatest_le _

theorem take_border_suffix (w : List α) : w.take (border w) <:+ w :=
  Nat.findGreatest_spec (P := fun k => w.take k <:+ w) (Nat.zero_le _) List.nil_suffix

theorem le_border {k : ℕ} (hk : k < w.length) (h : w.take k <:+ w) : k ≤ border w :=
  Nat.le_findGreatest (by omega) h

theorem border_of_length_le_one (hw : w.length ≤ 1) : border w = 0 := by
  have hle := border_le w
  omega

/-! ### One more character -/

omit [DecidableEq α] in
theorem take_concat_suffix_iff {k : ℕ} (hk : k < w.length) :
    (w ++ [c]).take (k + 1) <:+ w ++ [c] ↔ w.take k <:+ w ∧ w[k]? = some c := by
  rw [List.take_append_of_le_length hk, take_succ_suffix_iff hk]

theorem border_concat_eq_succ {k : ℕ} (h : border (w ++ [c]) = k + 1) :
    k ≤ border w ∧ w[k]? = some c := by
  have hle := border_le (w ++ [c])
  rw [List.length_append, List.length_singleton] at hle
  have hk : k < w.length := by omega
  have hsuffix := take_border_suffix (w ++ [c])
  rw [h, take_concat_suffix_iff hk] at hsuffix
  exact ⟨le_border hk hsuffix.1, hsuffix.2⟩

/-- The border does not grow by more than the character. -/
theorem border_concat_le (w : List α) (c : α) : border (w ++ [c]) ≤ border w + 1 := by
  rcases hk : border (w ++ [c]) with _ | k
  · exact Nat.zero_le _
  · exact Nat.succ_le_succ (border_concat_eq_succ hk).1

/-- The border goes on with the character. -/
theorem border_concat_of_eq (h : w[border w]? = some c) : border (w ++ [c]) = border w + 1 := by
  rcases List.getElem?_eq_some_iff.mp h with ⟨hlt, -⟩
  refine Nat.le_antisymm (border_concat_le w c) (le_border ?_ ?_)
  · rw [List.length_append, List.length_singleton]
    omega
  · exact (take_concat_suffix_iff hlt).mpr ⟨take_border_suffix w, h⟩

/-- There is no border, and the character is not the first one. -/
theorem border_concat_of_zero (hw : border w = 0) (h : w[0]? ≠ some c) :
    border (w ++ [c]) = 0 := by
  rcases hk : border (w ++ [c]) with _ | k
  · rfl
  · rcases border_concat_eq_succ hk with ⟨hle, hc⟩
    rw [hw, Nat.le_zero] at hle
    rw [hle] at hc
    exact absurd hc h

/-! ### The beginnings of a pattern -/

section Take

variable {s : List α} {i : ℕ}

theorem border_take_lt (s : List α) (hi : 0 < i) : border (s.take i) < i := by
  have hle := border_le (s.take i)
  have hlen := List.length_take_le i s
  omega

theorem border_take_succ_le (hi : i < s.length) :
    border (s.take (i + 1)) ≤ border (s.take i) + 1 := by
  rw [List.take_succ_eq_append_getElem hi]
  exact border_concat_le _ _

theorem border_take_succ_of_eq (hpos : 0 < i) (hi : i < s.length)
    (h : s[border (s.take i)]? = s[i]?) : border (s.take (i + 1)) = border (s.take i) + 1 := by
  rw [List.take_succ_eq_append_getElem hi]
  refine border_concat_of_eq ?_
  rw [List.getElem?_take_of_lt (border_take_lt s hpos), h, List.getElem?_eq_getElem hi]

theorem border_take_succ_of_zero (hpos : 0 < i) (hi : i < s.length)
    (hzero : border (s.take i) = 0) (h : s[0]? ≠ s[i]?) : border (s.take (i + 1)) = 0 := by
  rw [List.take_succ_eq_append_getElem hi]
  refine border_concat_of_zero hzero ?_
  rw [List.getElem?_take_of_lt hpos, ← List.getElem?_eq_getElem hi]
  exact h

end Take

/-! ### Falling back to the border -/

/-- The border of a beginning of a pattern is what the rest of it overlaps with. -/
theorem overlap_tail_take {s : List α} {j : ℕ} (hpos : 0 < j) (hj : j ≤ s.length) :
    overlap s (s.take j).tail = border (s.take j) := by
  have hlen : (s.take j).length = j := List.length_take_of_le hj
  have htail : (s.take j).tail <:+ s.take j := List.tail_suffix _
  have hpart {k : ℕ} (hk : k < j) : (s.take j).take k = s.take k := by
    rw [List.take_take, Nat.min_eq_left (Nat.le_of_lt hk)]
  apply Nat.le_antisymm
  · have hsuffix := take_overlap_suffix s (s.take j).tail
    have hle := hsuffix.length_le
    have hfull := overlap_le s (s.take j).tail
    rw [List.length_take, List.length_tail, hlen] at hle
    have hlt : overlap s (s.take j).tail < j := by omega
    refine le_border (by rw [hlen]; exact hlt) ?_
    rw [hpart hlt]
    exact hsuffix.trans htail
  · have hlt := border_take_lt s hpos
    have hsuffix := take_border_suffix (s.take j)
    rw [hpart hlt] at hsuffix
    refine le_overlap (by omega) (List.suffix_of_suffix_length_le hsuffix htail ?_)
    rw [List.length_take, List.length_tail, hlen]
    omega

/-- The table that falls back to the borders is faithful. -/
theorem Table.faithful_of_border {s : List α} {t : Table}
    (h : ∀ j, 0 < j → j < s.length → t.back j = border (s.take j)) : t.Faithful s := by
  intro j c hpos hj hc
  have hlen : (s.take j).length = j := List.length_take_of_le (Nat.le_of_lt hj)
  have htail : (s.take j).tail ++ [c] <:+ s.take j ++ [c] :=
    (List.suffix_append_self_iff).mpr (List.tail_suffix _)
  rw [h j hpos hj, ← overlap_tail_take hpos (Nat.le_of_lt hj), ← overlap_concat]
  apply Nat.le_antisymm
  · exact overlap_le_of_suffix htail
  -- What goes on is shorter than all of it, so the first character is not needed.
  · have hle := overlap_take_concat_le hj hc
    refine le_overlap (overlap_le _ _)
      (List.suffix_of_suffix_length_le (take_overlap_suffix s _) htail ?_)
    rw [List.length_take, List.length_append, List.length_tail, hlen, List.length_singleton]
    omega

end Matching

end BlogSample
