import BlogSample.KmpSample.Program

/-!
# What the Search Finds

When the next character of the pattern does not fit, the textbook table falls back
again and again, until a shorter match goes on with that character or none is left.
`Build_NextTable` falls back once, does not compare again, and leaves the entry
zero. Some of its entries then are too small, and those that come after a fallback
to something longer can be too large.

Whether that matters depends on the pattern: an entry is as good as the right one
if each character that makes the search use it leads to the same match. If all
entries are, the search is exact on every source, and if one is not, there is a
source on which the search goes wrong.

## Main definitions

* `FallsBackRight`: Each entry of the table leads to the match it should lead to.

## Theorems

* `kmp_eq_finds`: The search is the matcher that falls back by the table.
* `kmp_exact_iff`: For which patterns the search is exact.
* `fallsBackRight_of_notMem`: A pattern whose first character does not come again
  is one of them.
-/

namespace BlogSample

namespace KmpSample

open DotNet Matching

variable {α : Type} [DecidableEq α]

/-- Each entry of the table leads to the right match: after a character that does not go on
    with the first `j` characters of the pattern, the longest beginning of the pattern that
    can be matched is the same with only as many of them as the entry says. -/
def FallsBackRight (subStr : List α) : Prop :=
  ∀ next, buildNextTable subStr = .ok next →
    ∀ (j : Nat) (k : Int) (c : α), 0 < j → j < subStr.length → next[j - 1]? = some k →
      subStr[j]? ≠ some c →
      overlap subStr (subStr.take k.toNat ++ [c]) = overlap subStr (subStr.take j ++ [c])

/-- The search is the matcher that falls back by the table. -/
theorem kmp_eq_finds {subStr : List α} (hne : subStr ≠ []) {next : List Int}
    (hnext : buildNextTable subStr = .ok next) (hlen : next.length = subStr.length)
    (h : Bounded next) (source : List α) :
    kmp (2 * source.length) source subStr =
      some (.ok ((fallback next h).finds subStr 0 source)) := by
  have hpos := List.length_pos_of_ne_nil hne
  have hloop : kmpLoop source subStr next (2 * source.length) (0 : Nat) (0 : Nat) = _ :=
    kmpLoop_eq hlen h _ 0 0 (Nat.zero_le _) hpos (by omega)
  rw [kmp, hnext]
  rw [List.drop_zero] at hloop
  exact hloop

theorem faithful_iff {subStr : List α} {next : List Int} (hnext : buildNextTable subStr = .ok next)
    (hlen : next.length = subStr.length) (h : Bounded next) :
    (fallback next h).Faithful subStr ↔ FallsBackRight subStr := by
  have hback {j : Nat} {k : Int} (hk : next[j - 1]? = some k) :
      (fallback next h).back j = k.toNat := by
    change (next[j - 1]?.getD 0).toNat = k.toNat
    rw [hk, Option.getD_some]
  constructor
  · intro hfaithful next' hnext' j k c hpos hj hk hc
    rw [hnext, Except.ok.injEq] at hnext'
    rw [← hnext'] at hk
    rw [← hback hk]
    exact hfaithful j c hpos hj hc
  · intro hright j c hpos hj hc
    have hk := List.getElem?_eq_getElem (show j - 1 < next.length by omega)
    rw [hback hk]
    exact hright next hnext j _ c hpos hj hk hc

/-- For a pattern that is not empty, the search says whether the pattern occurs, for every
    source, if and only if each entry of the table leads to the right match. -/
theorem kmp_exact_iff (subStr : List α) (hne : subStr ≠ []) :
    (∀ source, kmp (2 * source.length) source subStr = some (.ok true) ↔ subStr <:+: source) ↔
      FallsBackRight subStr := by
  rcases buildNextTable_total subStr with ⟨next, hnext, hlen, h⟩
  -- The search is a matcher, and a matcher is exact if its table is faithful.
  rw [← faithful_iff hnext hlen h, ← Table.finds_iff _ hne]
  refine forall_congr' (fun source => ?_)
  rw [kmp_eq_finds hne hnext hlen h, Option.some.injEq, Except.ok.injEq]

/-- The pattern occurs at the end, and is not found: after `abaa` the table has zero, where
    the last `a` is the beginning of another match. -/
theorem kmp_misses_abaaa :
    "abaaa".toList <:+: "abaabaaa".toList ∧
      kmp (2 * "abaabaaa".toList.length) "abaabaaa".toList "abaaa".toList = some (.ok false) :=
  ⟨⟨"aba".toList, [], by decide⟩, by decide +kernel⟩

/-! ### Patterns that begin with a character of their own -/

/-- Nothing in the pattern is like its beginning, so every entry is zero. -/
theorem buildNextTable_of_notMem {x : α} {s : List α} (hx : x ∉ s) :
    buildNextTable (x :: s) = .ok (List.replicate (s.length + 1) 0) := by
  -- No character is like the first one, so each round writes a zero.
  have hround (i : Nat) (hpos : 0 < i) (hi : i < (x :: s).length) :
      buildRound (x :: s) ⟨List.replicate (s.length + 1) 0, 0⟩ i =
        .ok ⟨List.replicate (s.length + 1) 0, 0⟩ := by
    have hne : ¬(x :: s)[0] = (x :: s)[i] := by
      intro heq
      rcases i with _ | i
      · exact absurd hpos (Nat.lt_irrefl 0)
      · rw [List.getElem_cons_zero, List.getElem_cons_succ] at heq
        rw [heq] at hx
        exact hx (List.getElem_mem _)
    have hfirst : getItem (x :: s) 0 = .ok (x :: s)[0] := rfl
    have hset : setItem (List.replicate (s.length + 1) (0 : Int)) i 0 =
        .ok (List.replicate (s.length + 1) 0) := by
      rw [setItem_of_lt (by rw [List.length_replicate]; exact hi), List.set_replicate_self]
    rw [buildRound, hfirst, getItem_of_lt hi]
    change (if (x :: s)[0] = (x :: s)[i] then _ else _) = _
    rw [if_neg hne]
    change (setItem (List.replicate (s.length + 1) (0 : Int)) i 0 >>= _) = _
    rw [hset]
    rfl
  have hloop (n : Nat) : ∀ i, 0 < i → i + n ≤ (x :: s).length →
      (List.range' i n).foldlM (buildRound (x :: s)) ⟨List.replicate (s.length + 1) 0, 0⟩ =
        .ok ⟨List.replicate (s.length + 1) 0, 0⟩ := by
    induction n with
    | zero => exact fun i _ _ => rfl
    | succ n ih =>
        intro i hpos hi
        rw [List.range'_succ, foldlM_cons_ok (hround i hpos (by omega))]
        exact ih (i + 1) (Nat.succ_pos i) (by omega)
  have hall := hloop s.length 1 Nat.one_pos (by rw [List.length_cons]; omega)
  rw [buildNextTable, List.length_cons, Nat.add_sub_cancel, hall]
  rfl

/-- A pattern whose first character does not come again falls back right. -/
theorem fallsBackRight_of_notMem {x : α} {s : List α} (hx : x ∉ s) :
    FallsBackRight (x :: s) := by
  intro next hnext j k c hpos hj hk hc
  rw [buildNextTable_of_notMem hx, Except.ok.injEq] at hnext
  rw [← hnext, List.getElem?_replicate] at hk
  have hk : k = 0 := by
    split at hk
    · exact (Option.some.inj hk).symm
    · cases hk
  rw [hk]
  exact (overlap_take_concat_of_notMem hx hj hc).symm

end KmpSample

end BlogSample
