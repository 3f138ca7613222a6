import Mathlib.Data.List.Infix
import Mathlib.Data.Nat.Find

/-!
# Matching by Falling Back

A matcher reads a text and keeps how long a beginning of the pattern the text
ends with so far. When the next character does not go on with that beginning, it
falls back to a shorter one that a table has for it, and tries that.

The table is arbitrary here, except that it falls back to something shorter. What
a matcher finds is what occurs in the text if and only if each entry of its table
is faithful: with any character that does not go on with the beginning, the
shorter beginning leads to the same overlap as the longer one. A table with
another entry is found out by a text, since a matcher that believes too little
misses the rest of the pattern, and one that believes too much needs less than
the rest to report it.

## Main definitions

* `overlap`: The longest beginning of a pattern that a text ends with.
* `Table`: What to fall back to.
* `Table.step`, `Table.finds`: Reading a character, and a text.
* `Table.Faithful`: Falling back does not change the overlap.

## Theorems

* `overlap_concat`: The overlap with one more character.
* `Table.step_eq_of_faithful`: With a faithful table the matcher has the overlap.
* `Table.step_eq_of_finds`: If the matcher finds what occurs, it has the overlap.
* `Table.finds_iff`: When a matcher finds what occurs.
-/

namespace BlogSample

namespace Matching

universe u

variable {α : Type u} [DecidableEq α] {s : List α}

/-- The length of the longest beginning of a pattern that a text ends with. -/
def overlap (s w : List α) : ℕ :=
  Nat.findGreatest (fun k => s.take k <:+ w) s.length

theorem overlap_le (s w : List α) : overlap s w ≤ s.length :=
  Nat.findGreatest_le s.length

theorem take_overlap_suffix (s w : List α) : s.take (overlap s w) <:+ w :=
  Nat.findGreatest_spec (P := fun k => s.take k <:+ w) (Nat.zero_le _) List.nil_suffix

theorem le_overlap {w : List α} {k : ℕ} (hk : k ≤ s.length) (h : s.take k <:+ w) :
    k ≤ overlap s w :=
  Nat.le_findGreatest hk h

theorem overlap_eq_length_iff {w : List α} : overlap s w = s.length ↔ s <:+ w := by
  constructor
  · intro h
    have hsuffix := take_overlap_suffix s w
    rw [h, List.take_length] at hsuffix
    exact hsuffix
  · intro h
    refine Nat.le_antisymm (overlap_le s w) (le_overlap (Nat.le_refl _) ?_)
    rw [List.take_length]
    exact h

theorem overlap_nil : overlap s [] = 0 := by
  have hnil := List.suffix_nil.mp (take_overlap_suffix s [])
  have hle := overlap_le s []
  have hlen := congrArg List.length hnil
  rw [List.length_take, List.length_nil] at hlen
  omega

theorem overlap_take {j : ℕ} (hj : j ≤ s.length) : overlap s (s.take j) = j := by
  have hlen := (take_overlap_suffix s (s.take j)).length_le
  have hle := overlap_le s (s.take j)
  rw [List.length_take, List.length_take] at hlen
  have hge := le_overlap hj (List.suffix_refl (s.take j))
  omega

omit [DecidableEq α] in
theorem take_succ_suffix_iff {w : List α} {c : α} {k : ℕ} (hk : k < s.length) :
    s.take (k + 1) <:+ w ++ [c] ↔ s.take k <:+ w ∧ s[k]? = some c := by
  rw [List.take_succ_eq_append_getElem hk, List.getElem?_eq_getElem hk, Option.some.injEq]
  constructor
  · rintro ⟨v, hv⟩
    rw [← List.append_assoc] at hv
    have hparts := List.append_inj' hv rfl
    exact ⟨⟨v, hparts.1⟩, List.singleton_inj.mp hparts.2⟩
  · rintro ⟨⟨v, rfl⟩, rfl⟩
    exact ⟨v, (List.append_assoc ..).symm⟩

/-- What is read is only needed as far as it overlaps with the pattern. -/
theorem overlap_concat (s w : List α) (c : α) :
    overlap s (w ++ [c]) = overlap s (s.take (overlap s w) ++ [c]) := by
  -- What the text ends with, its overlap ends with, since none is longer.
  have hends (k : ℕ) (hk : k ≤ s.length) :
      s.take k <:+ w ↔ s.take k <:+ s.take (overlap s w) := by
    constructor
    · intro h
      refine List.suffix_of_suffix_length_le h (take_overlap_suffix s w) ?_
      rw [List.length_take, List.length_take]
      have hle := le_overlap hk h
      omega
    · exact fun h => h.trans (take_overlap_suffix s w)
  have hsame (k : ℕ) (hk : k ≤ s.length) :
      s.take k <:+ w ++ [c] ↔ s.take k <:+ s.take (overlap s w) ++ [c] := by
    cases k with
    | zero => exact iff_of_true List.nil_suffix List.nil_suffix
    | succ k =>
        rw [take_succ_suffix_iff (by omega), take_succ_suffix_iff (by omega), hends k (by omega)]
  apply Nat.le_antisymm
  · exact le_overlap (overlap_le _ _) ((hsame _ (overlap_le _ _)).mp (take_overlap_suffix _ _))
  · exact le_overlap (overlap_le _ _) ((hsame _ (overlap_le _ _)).mpr (take_overlap_suffix _ _))

/-- An overlap that ends with a character that was just read. -/
theorem overlap_concat_eq_succ {w : List α} {c : α} {k : ℕ} (h : overlap s (w ++ [c]) = k + 1) :
    k ≤ overlap s w ∧ s[k]? = some c := by
  have hk : k < s.length := by
    have hle := overlap_le s (w ++ [c])
    omega
  have hsuffix := take_overlap_suffix s (w ++ [c])
  rw [h, take_succ_suffix_iff hk] at hsuffix
  exact ⟨le_overlap (Nat.le_of_lt hk) hsuffix.1, hsuffix.2⟩

theorem overlap_append_le (w v : List α) : overlap s (w ++ v) ≤ overlap s w + v.length := by
  induction v generalizing w with
  | nil => rw [List.append_nil, List.length_nil, Nat.add_zero]
  | cons c v ih =>
      have hle := ih (w ++ [c])
      rw [List.append_assoc] at hle
      refine Nat.le_trans hle ?_
      rw [List.length_cons]
      rcases hk : overlap s (w ++ [c]) with _ | k
      · omega
      · have := (overlap_concat_eq_succ hk).1
        omega

theorem overlap_take_concat {j : ℕ} {c : α} (hj : s[j]? = some c) :
    overlap s (s.take j ++ [c]) = j + 1 := by
  rcases List.getElem?_eq_some_iff.mp hj with ⟨hlt, rfl⟩
  rw [← List.take_succ_eq_append_getElem hlt, overlap_take hlt]

theorem overlap_take_concat_le {j : ℕ} {c : α} (hlt : j < s.length) (hj : s[j]? ≠ some c) :
    overlap s (s.take j ++ [c]) ≤ j := by
  rcases hk : overlap s (s.take j ++ [c]) with _ | k
  · exact Nat.zero_le j
  -- A longer one would go on with the character.
  · rcases overlap_concat_eq_succ hk with ⟨hle, hc⟩
    rw [overlap_take (Nat.le_of_lt hlt)] at hle
    rcases Nat.lt_or_eq_of_le hle with hkj | rfl
    · exact hkj
    · exact absurd hc hj

theorem overlap_le_of_suffix {w w' : List α} (h : w <:+ w') : overlap s w ≤ overlap s w' :=
  le_overlap (overlap_le s w) ((take_overlap_suffix s w).trans h)

/-- Where the first character of the pattern does not come again, a character that does not
    go on leaves at most itself. -/
theorem overlap_take_concat_of_notMem {x c : α} (hx : x ∉ s) {j : ℕ} (hlt : j < (x :: s).length)
    (hj : (x :: s)[j]? ≠ some c) :
    overlap (x :: s) ((x :: s).take j ++ [c]) = overlap (x :: s) [c] := by
  apply Nat.le_antisymm
  · have hle := overlap_take_concat_le hlt hj
    have hsuffix := take_overlap_suffix (x :: s) ((x :: s).take j ++ [c])
    rcases hk : overlap (x :: s) ((x :: s).take j ++ [c]) with _ | k
    · exact Nat.zero_le _
    · rw [hk] at hle hsuffix
      rcases (take_succ_suffix_iff (by omega)).mp hsuffix with ⟨htake, hc⟩
      rcases k with _ | k
      · exact le_overlap (by omega) ((take_succ_suffix_iff (w := []) (by omega)).mpr
          ⟨List.nil_suffix, hc⟩)
      -- The shorter beginning would start within the longer one.
      · rcases j with _ | j
        · omega
        · rw [List.take_succ_cons, List.take_succ_cons] at htake
          rcases List.suffix_cons_iff.mp htake with heq | hrest
          · have hlen := congrArg List.length heq
            rw [List.length_cons] at hlt
            simp only [List.length_cons, List.length_take] at hlen
            omega
          · exact absurd (List.mem_of_mem_take (hrest.mem List.mem_cons_self)) hx
  · exact overlap_le_of_suffix (List.suffix_append _ [c])

/-! ### Falling back -/

/-- What to fall back to from each beginning of the pattern. -/
structure Table where
  back : ℕ → ℕ
  back_lt : ∀ j, 0 < j → back j < j

namespace Table

variable (t : Table)

/-- How much of the pattern is matched after a character has been read. -/
def step (t : Table) (s : List α) (c : α) (j : ℕ) : ℕ :=
  if s[j]? = some c then j + 1
  else if _h : 0 < j then t.step s c (t.back j)
  else 0
termination_by j
decreasing_by exact t.back_lt j _h

/-- The pattern is found in a text, some of it being matched already. -/
def finds (t : Table) (s : List α) : ℕ → List α → Bool
  | _, [] => false
  | j, c :: w => t.step s c j = s.length || t.finds s (t.step s c j) w

/-- Falling back does not change the overlap with a character that does not go on. -/
def Faithful (t : Table) (s : List α) : Prop :=
  ∀ j c, 0 < j → j < s.length → s[j]? ≠ some c →
    overlap s (s.take (t.back j) ++ [c]) = overlap s (s.take j ++ [c])

theorem step_of_eq {j : ℕ} {c : α} (h : s[j]? = some c) : t.step s c j = j + 1 := by
  rw [step, if_pos h]

theorem step_of_pos {j : ℕ} {c : α} (h : s[j]? ≠ some c) (hj : 0 < j) :
    t.step s c j = t.step s c (t.back j) := by
  rw [step, if_neg h, dif_pos hj]

theorem step_zero {c : α} (h : s[0]? ≠ some c) : t.step s c 0 = 0 := by
  rw [step, if_neg h, dif_neg (Nat.lt_irrefl 0)]

theorem step_le (s : List α) (c : α) (j : ℕ) : t.step s c j ≤ j + 1 := by
  induction j using Nat.strongRecOn with
  | ind j ih =>
      by_cases h : s[j]? = some c
      · exact Nat.le_of_eq (t.step_of_eq h)
      · rcases Nat.eq_zero_or_pos j with rfl | hj
        · rw [t.step_zero h]
          exact Nat.zero_le _
        · rw [t.step_of_pos h hj]
          have hback := t.back_lt j hj
          have hle := ih (t.back j) hback
          omega

theorem step_le_of_ne {j : ℕ} {c : α} (h : s[j]? ≠ some c) : t.step s c j ≤ j := by
  rcases Nat.eq_zero_or_pos j with rfl | hj
  · exact Nat.le_of_eq (t.step_zero h)
  · rw [t.step_of_pos h hj]
    have hback := t.back_lt j hj
    have hle := t.step_le s c (t.back j)
    omega

/-- With a faithful table, the matcher has the overlap. The induction is on how much is
    matched, since falling back leaves less. -/
theorem step_eq_of_faithful (ht : t.Faithful s) (c : α) (j : ℕ) (hj : j < s.length) :
    t.step s c j = overlap s (s.take j ++ [c]) := by
  induction j using Nat.strongRecOn with
  | ind j ih =>
      by_cases h : s[j]? = some c
      · rw [t.step_of_eq h, overlap_take_concat h]
      · rcases Nat.eq_zero_or_pos j with rfl | hpos
        · have hle := overlap_take_concat_le hj h
          rw [t.step_zero h]
          omega
        -- What it falls back to leads to the same overlap.
        · have hback := t.back_lt j hpos
          rw [t.step_of_pos h hpos, ih (t.back j) hback (Nat.lt_trans hback hj)]
          exact ht j c hpos hj h

theorem faithful_of_step_eq (h : ∀ c j, j < s.length → t.step s c j = overlap s (s.take j ++ [c])) :
    t.Faithful s := by
  intro j c hpos hj hne
  rw [← h c j hj, ← h c (t.back j) (Nat.lt_trans (t.back_lt j hpos) hj), t.step_of_pos hne hpos]

/-- With a faithful table, the pattern is found if the text with what was read before it
    comes to an end of the pattern. -/
theorem finds_iff_of_faithful (ht : t.Faithful s) (w : List α) : ∀ u : List α,
    overlap s u < s.length →
    (t.finds s (overlap s u) w = true ↔ ∃ v, v ≠ [] ∧ v <+: w ∧ s <:+ u ++ v) := by
  induction w with
  | nil =>
      intro u _
      refine iff_of_false Bool.false_ne_true ?_
      rintro ⟨v, hne, hv, -⟩
      exact hne (List.prefix_nil.mp hv)
  | cons c w ih =>
      intro u hu
      have hstep : t.step s c (overlap s u) = overlap s (u ++ [c]) := by
        rw [t.step_eq_of_faithful ht c _ hu, ← overlap_concat]
      rw [finds, hstep, Bool.or_eq_true, decide_eq_true_eq]
      -- The pattern ends here, or later.
      by_cases hend : overlap s (u ++ [c]) = s.length
      · refine iff_of_true (.inl hend) ⟨[c], List.cons_ne_nil c [], ?_, ?_⟩
        · exact List.prefix_append [c] w
        · exact overlap_eq_length_iff.mp hend
      · rw [or_iff_right hend, ih _ (Nat.lt_of_le_of_ne (overlap_le _ _) hend)]
        constructor
        · rintro ⟨v, -, hv, hsuffix⟩
          rw [List.append_assoc] at hsuffix
          exact ⟨c :: v, List.cons_ne_nil c v, List.cons_prefix_cons.mpr ⟨rfl, hv⟩, hsuffix⟩
        · rintro ⟨v, hne, hv, hsuffix⟩
          rcases v with _ | ⟨d, v⟩
          · exact absurd rfl hne
          · rcases List.cons_prefix_cons.mp hv with ⟨rfl, hrest⟩
            refine ⟨v, ?_, hrest, ?_⟩
            · rintro rfl
              exact hend (overlap_eq_length_iff.mpr hsuffix)
            · rw [List.append_assoc]
              exact hsuffix

/-! ### Texts that tell -/

theorem finds_drop {j : ℕ} (hj : j < s.length) : t.finds s j (s.drop j) = true := by
  rw [List.drop_eq_getElem_cons hj, finds, t.step_of_eq (List.getElem?_eq_getElem hj),
    Bool.or_eq_true, decide_eq_true_eq]
  by_cases hend : j + 1 = s.length
  · exact .inl hend
  · exact .inr (finds_drop (by omega))
termination_by s.length - j

theorem finds_take_append (w : List α) {j : ℕ} (hj : j < s.length) :
    t.finds s 0 (s.take j ++ w) = t.finds s j w := by
  induction j generalizing w with
  | zero => rfl
  | succ j ih =>
      have hlt : j < s.length := by omega
      rw [List.take_succ_eq_append_getElem hlt, List.append_assoc, ih _ hlt, List.singleton_append,
        finds, t.step_of_eq (List.getElem?_eq_getElem hlt), decide_eq_false (by omega),
        Bool.false_or]

/-- What is found needs as many characters as are missing. -/
theorem length_le_of_finds {j : ℕ} {w : List α} (h : t.finds s j w = true) :
    s.length ≤ j + w.length := by
  induction w generalizing j with
  | nil => cases h
  | cons c w ih =>
      rw [finds, Bool.or_eq_true, decide_eq_true_eq] at h
      have hle := t.step_le s c j
      rw [List.length_cons]
      rcases h with hend | hrest
      · omega
      · have := ih hrest
        omega

/-- A text that goes through a part of the pattern, a character, and the rest of the pattern
    from somewhere on. -/
theorem finds_detour {j k : ℕ} {c : α} (hj : j < s.length) (hc : s[j]? ≠ some c) :
    t.finds s 0 (s.take j ++ ([c] ++ s.drop k)) = t.finds s (t.step s c j) (s.drop k) := by
  have hle := t.step_le_of_ne hc
  rw [t.finds_take_append _ hj, List.singleton_append, finds, decide_eq_false (by omega),
    Bool.false_or]

/-- If the matcher finds what occurs, it has the overlap. Where it has another number, it
    goes wrong on a text that ends with the pattern from the larger one of the two on. -/
theorem step_eq_of_finds (h : ∀ w, t.finds s 0 w = true ↔ s <:+: w) (c : α) (j : ℕ)
    (hj : j < s.length) : t.step s c j = overlap s (s.take j ++ [c]) := by
  by_cases hc : s[j]? = some c
  · rw [t.step_of_eq hc, overlap_take_concat hc]
  have hstep := t.step_le_of_ne hc
  have hover := overlap_take_concat_le hj hc
  rcases Nat.lt_trichotomy (t.step s c j) (overlap s (s.take j ++ [c])) with hlt | heq | hgt
  -- The pattern occurs, and the matcher needs more than is left.
  · have hoccurs : s <:+: s.take j ++ ([c] ++ s.drop (overlap s (s.take j ++ [c]))) := by
      have hends := take_overlap_suffix s (s.take j ++ [c])
      generalize overlap s (s.take j ++ [c]) = b at hends
      rcases hends with ⟨v, hv⟩
      refine List.IsSuffix.isInfix ⟨v, ?_⟩
      rw [← List.append_assoc, ← hv, List.append_assoc, List.take_append_drop]
    have hfinds := (h _).mpr hoccurs
    rw [t.finds_detour hj hc] at hfinds
    have hneeds := t.length_le_of_finds hfinds
    rw [List.length_drop] at hneeds
    omega
  · exact heq
  -- The matcher finds the pattern, and every overlap is too small.
  · have hfinds := t.finds_drop (s := s) (j := t.step s c j) (by omega)
    rw [← t.finds_detour hj hc, h, ← List.append_assoc] at hfinds
    rcases List.infix_iff_suffix_prefix.mp hfinds with ⟨u, hsuffix, hprefix⟩
    have hlen := hsuffix.length_le
    have hsize : (s.take j ++ [c]).length = j + 1 := by
      rw [List.length_append, List.length_take, List.length_singleton]
      omega
    rcases List.prefix_of_prefix_length_le (List.prefix_append _ _) hprefix (by omega) with ⟨v, rfl⟩
    have hv := (List.prefix_append_right_inj _).mp hprefix
    have hle := overlap_append_le (s := s) (s.take j ++ [c]) v
    have hvlen := hv.length_le
    rw [overlap_eq_length_iff.mpr hsuffix] at hle
    rw [List.length_drop] at hvlen
    omega

/-- A matcher finds what occurs if and only if its table is faithful. -/
theorem finds_iff (hs : s ≠ []) :
    (∀ w, t.finds s 0 w = true ↔ s <:+: w) ↔ t.Faithful s := by
  constructor
  · exact fun h => t.faithful_of_step_eq (t.step_eq_of_finds h)
  · intro ht w
    have hpos := List.length_pos_of_ne_nil hs
    have hfinds := t.finds_iff_of_faithful ht w [] (by rw [overlap_nil]; exact hpos)
    rw [overlap_nil] at hfinds
    rw [hfinds, List.infix_iff_suffix_prefix]
    simp only [List.nil_append]
    constructor
    · rintro ⟨v, -, hv, hsuffix⟩
      exact ⟨v, hsuffix, hv⟩
    · rintro ⟨v, hsuffix, hv⟩
      refine ⟨v, ?_, hv, hsuffix⟩
      rintro rfl
      exact hs (List.suffix_nil.mp hsuffix)

end Table

end Matching

end BlogSample
