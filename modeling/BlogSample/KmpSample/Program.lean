import BlogSample.DotNet
import BlogSample.Theory.Matching

/-!
# The Search of Knuth, Morris and Pratt

`Build_NextTable` and `KMP`. The table has for each position of the pattern how
much of it is still matched when the next character does not fit. The sample
builds it in one loop that falls back only once for each position, so the
entries are not always those of the textbook; but each is at most its position.

That is enough for the search to stay within the arrays and to end: each round
of the loop moves on in the source, or falls back to a shorter match. A match
grows only when the source moves on, so there are at most two rounds for each
character of the source.

A string is a list of characters, of which the code uses only whether two are
equal. The `while` loop takes fuel, which counts its rounds.

## Main definitions

* `buildNextTable`, `kmp`: The functions of the source.
* `TableOk`: What the loop that builds the table keeps.
* `fallback`: The table, as what to fall back to from each length.

## Theorems

* `buildRound_eq`: What one round of the loop that builds the table does.
* `buildNextTable_total`: The table is built, and no entry is out of range.
* `kmpLoop_eq`: The loop is the matcher that falls back by the table.
* `kmp_terminates`: The search stays within its arrays and ends.
-/

namespace BlogSample

namespace KmpSample

open DotNet Matching

variable {α : Type} [DecidableEq α]

/-- `res` and `prefix_len`. -/
structure Building where
  res : List Int
  prefix_len : Int

/-- `prefix_len - 1 < 0 ? 0 : res[prefix_len - 1]`. -/
def Building.back (b : Building) : Except Exn Int :=
  if b.prefix_len - 1 < 0 then pure 0 else getItem b.res (b.prefix_len - 1)

/-- One round of the loop of `Build_NextTable`. -/
def buildRound (s : List α) (b : Building) (i : Nat) : Except Exn Building := do
  let x ← getItem s b.prefix_len
  let y ← getItem s i
  if x = y then do
    let prefix_len := b.prefix_len + 1
    let res ← setItem b.res i prefix_len
    pure { res := res, prefix_len := prefix_len }
  else do
    let prefix_len ← b.back
    if prefix_len = 0 then do
      let res ← setItem b.res i 0
      pure { res := res, prefix_len := prefix_len }
    else pure { res := b.res, prefix_len := prefix_len }

/-- `Build_NextTable(s)`. -/
def buildNextTable (s : List α) : Except Exn (List Int) := do
  let b ← (List.range' 1 (s.length - 1)).foldlM (buildRound s)
    { res := List.replicate s.length 0, prefix_len := 0 }
  pure b.res

/-- What the loop of `KMP` does with `i` and `j` in one round. -/
def kmpRound (source subStr : List α) (next : List Int) (i j : Int) : Except Exn (Int × Int) := do
  let x ← getItem source i
  let y ← getItem subStr j
  if x = y then pure (i + 1, j + 1)
  else if 0 < j then do
    let j ← getItem next (j - 1)
    pure (i, j)
  else pure (i + 1, j)

/-- The loop of `KMP`, for as many rounds as there is fuel. -/
def kmpLoop (source subStr : List α) (next : List Int) (fuel : Nat) (i j : Int) :
    Option (Except Exn Bool) :=
  if i < source.length ∧ j < subStr.length then
    match fuel with
    | 0 => none
    | fuel + 1 =>
        match kmpRound source subStr next i j with
        | .error e => some (throw e)
        | .ok (i, j) =>
            if j = subStr.length then some (pure true)
            else kmpLoop source subStr next fuel i j
  else some (pure false)

/-- `KMP(source, subStr)`. -/
def kmp (fuel : Nat) (source subStr : List α) : Option (Except Exn Bool) :=
  match buildNextTable subStr with
  | .error e => some (throw e)
  | .ok next => kmpLoop source subStr next fuel 0 0

/-! ### The table -/

/-- No entry of a table is larger than its position. -/
def Bounded (res : List Int) : Prop :=
  ∀ (k : Nat) (x : Int), res[k]? = some x → 0 ≤ x ∧ x ≤ k

theorem Bounded.set {res : List Int} (h : Bounded res) {i p : Nat} (hp : p ≤ i) :
    Bounded (res.set i p) := by
  intro k x hx
  rw [List.getElem?_set] at hx
  by_cases hik : i = k
  · rw [if_pos hik] at hx
    split at hx
    · cases hx
      omega
    · cases hx
  · rw [if_neg hik] at hx
    exact h k x hx

/-- What the loop that builds the table keeps, before the round of a position. -/
structure TableOk (s : List α) (b : Building) (i : Nat) : Prop where
  length : b.res.length = s.length
  bounded : Bounded b.res
  prefix_len : ∃ p : Nat, b.prefix_len = p ∧ p < i

omit [DecidableEq α] in
/-- Falling back stays within the table. With nothing matched it is as if the first entry
    were read. -/
theorem TableOk.back_total {s : List α} {b : Building} {i p : Nat} (hb : TableOk s b i)
    (hi : i < s.length) (hp : b.prefix_len = p) :
    ∃ q : Nat, b.back = .ok (q : Int) ∧ q < i ∧ b.res[p - 1]? = some (q : Int) := by
  rcases hb with ⟨hlen, hbounded, p', hp', hlt⟩
  have hp' : p < b.res.length := by omega
  rw [Building.back, hp]
  rcases p with _ | p
  · have hentry := hbounded 0 _ (List.getElem?_eq_getElem hp')
    refine ⟨0, rfl, by omega, ?_⟩
    rw [List.getElem?_eq_getElem hp']
    exact congrArg some (Int.le_antisymm hentry.2 hentry.1)
  · have hcast : ((p + 1 : Nat) : Int) - 1 = p := by omega
    have hlt : p < b.res.length := by omega
    have hentry := hbounded p _ (List.getElem?_eq_getElem hlt)
    rw [hcast, if_neg (Int.not_lt.mpr (Int.natCast_nonneg p)), getItem_of_lt hlt]
    refine ⟨b.res[p].toNat, ?_, by omega, ?_⟩
    · rw [Int.toNat_of_nonneg hentry.1]
    · rw [Int.toNat_of_nonneg hentry.1, Nat.add_sub_cancel]
      exact List.getElem?_eq_getElem hlt

/-- What a round does with `p` matched characters, of which the table leaves `q`. -/
theorem buildRound_eq {s : List α} {b : Building} {i p q : Nat} (hb : TableOk s b i)
    (hi : i < s.length) (hp : b.prefix_len = p) (hback : b.back = .ok (q : Int)) :
    buildRound s b i = .ok (
      if s[p]? = s[i]? then ⟨b.res.set i (p + 1 : Nat), (p + 1 : Nat)⟩
      else ⟨if q = 0 then b.res.set i 0 else b.res, q⟩) := by
  rcases hb with ⟨hlen, -, p', hp', hlt⟩
  have hres : i < b.res.length := by omega
  have hp' : p < s.length := by omega
  have hsame : s[p]? = s[i]? ↔ s[p] = s[i] := by
    rw [List.getElem?_eq_getElem hp', List.getElem?_eq_getElem hi, Option.some.injEq]
  rw [buildRound, hp, getItem_of_lt hp', getItem_of_lt hi, hback]
  change (if s[p] = s[i] then _ else _) = _
  by_cases heq : s[p] = s[i]
  · rw [if_pos heq, if_pos (hsame.mpr heq)]
    change (setItem b.res i ((p + 1 : Nat) : Int) >>= _) = _
    rw [setItem_of_lt hres]
    rfl
  -- The match falls back once, and is not tried again.
  · rw [if_neg heq, if_neg (fun h => heq (hsame.mp h))]
    change (if (q : Int) = 0 then _ else _) = _
    by_cases hzero : q = 0
    · rw [if_pos (Int.natCast_eq_zero.mpr hzero), if_pos hzero, setItem_of_lt hres]
      rfl
    · rw [if_neg (fun h => hzero (Int.natCast_eq_zero.mp h)), if_neg hzero]
      rfl

/-- One round stays within the arrays: what is matched is shorter than the position. -/
theorem buildRound_total {s : List α} {b : Building} {i : Nat} (hb : TableOk s b i)
    (hi : i < s.length) : ∃ b', buildRound s b i = .ok b' ∧ TableOk s b' (i + 1) := by
  rcases hb.prefix_len with ⟨p, hp, hlt⟩
  rcases hb.back_total hi hp with ⟨q, hback, hq, -⟩
  refine ⟨_, buildRound_eq hb hi hp hback, ?_⟩
  by_cases heq : s[p]? = s[i]?
  · rw [if_pos heq]
    exact ⟨List.length_set.trans hb.length, hb.bounded.set hlt, p + 1, rfl, by omega⟩
  · rw [if_neg heq]
    by_cases hzero : q = 0
    · rw [if_pos hzero]
      exact ⟨List.length_set.trans hb.length, hb.bounded.set (Nat.zero_le i), q, rfl, by omega⟩
    · rw [if_neg hzero]
      exact ⟨hb.length, hb.bounded, q, rfl, by omega⟩

omit [DecidableEq α] in
/-- The loop begins with zeros, and nothing is matched. -/
theorem tableOk_start (s : List α) : TableOk s ⟨List.replicate s.length 0, 0⟩ 1 := by
  refine ⟨List.length_replicate, fun k x hx => ?_, 0, rfl, Nat.one_pos⟩
  rw [List.getElem?_replicate] at hx
  split at hx
  · cases hx
    omega
  · cases hx

/-- The table is built, has an entry for each position, and none is larger than that. -/
theorem buildNextTable_total (s : List α) :
    ∃ next, buildNextTable s = .ok next ∧ next.length = s.length ∧ Bounded next := by
  -- The loop begins with the second position.
  have hloop (n : Nat) : ∀ (i : Nat) (b : Building), TableOk s b i → i + n ≤ s.length →
      ∃ b', (List.range' i n).foldlM (buildRound s) b = .ok b' ∧ TableOk s b' (i + n) := by
    induction n with
    | zero => exact fun i b hb _ => ⟨b, rfl, hb⟩
    | succ n ih =>
        intro i b hb hn
        rcases buildRound_total hb (by omega) with ⟨b₁, h₁, hb₁⟩
        rcases ih (i + 1) b₁ hb₁ (by omega) with ⟨b', h', hb'⟩
        refine ⟨b', ?_, by rw [show i + (n + 1) = i + 1 + n by omega]; exact hb'⟩
        rw [List.range'_succ, foldlM_cons_ok h₁]
        exact h'
  have hstart := tableOk_start s
  rcases Nat.eq_zero_or_pos s.length with hzero | hpos
  · refine ⟨List.replicate s.length 0, ?_, List.length_replicate, hstart.bounded⟩
    rw [buildNextTable, hzero]
    rfl
  · rcases hloop (s.length - 1) 1 _ hstart (by omega) with ⟨b, hb, hok⟩
    refine ⟨b.res, ?_, hok.length, hok.bounded⟩
    rw [buildNextTable, hb]
    rfl

/-! ### The search -/

/-- What the table falls back to from each length. -/
def fallback (next : List Int) (h : Bounded next) : Table where
  back j := (next[j - 1]?.getD 0).toNat
  back_lt j hj := by
    cases hx : next[j - 1]? with
    | none => exact hj
    | some x =>
        have hle := h (j - 1) x hx
        change x.toNat < j
        omega

/-- The loop is left when the source or the pattern has come to its end. -/
theorem kmpLoop_of_end {source subStr : List α} (next : List Int) (fuel : Nat) {i j : Int}
    (h : ¬(i < source.length ∧ j < subStr.length)) :
    kmpLoop source subStr next fuel i j = some (.ok false) := by
  rw [kmpLoop.eq_def, if_neg h]
  rfl

/-- What a round leads to. -/
theorem kmpLoop_of_round {source subStr : List α} {next : List Int} (fuel : Nat)
    {i j i' j' : Int} (hi : i < source.length) (hj : j < subStr.length)
    (h : kmpRound source subStr next i j = .ok (i', j')) :
    kmpLoop source subStr next (fuel + 1) i j =
      if j' = subStr.length then some (.ok true) else kmpLoop source subStr next fuel i' j' := by
  rw [kmpLoop.eq_def, if_pos ⟨hi, hj⟩]
  simp only [h]
  rfl

/-- One round: the characters are equal, or the match falls back, or there is none. -/
theorem kmpRound_eq {source subStr : List α} {next : List Int}
    (hlen : next.length = subStr.length) (h : Bounded next) {i j : Nat}
    (hi : i < source.length) (hj : j < subStr.length) :
    kmpRound source subStr next i j = .ok (
      if subStr[j]? = some source[i] then ((i + 1 : Nat), (j + 1 : Nat))
      else if 0 < j then ((i : Nat), ((fallback next h).back j : Nat))
      else ((i + 1 : Nat), (j : Nat))) := by
  have hfit : subStr[j]? = some source[i] ↔ source[i] = subStr[j] := by
    rw [List.getElem?_eq_getElem hj, Option.some.injEq, eq_comm]
  rw [kmpRound, getItem_of_lt hi, getItem_of_lt hj]
  change (if source[i] = subStr[j] then _ else _) = _
  by_cases heq : source[i] = subStr[j]
  · rw [if_pos heq, if_pos (hfit.mpr heq)]
    rfl
  · rw [if_neg heq, if_neg (fun h => heq (hfit.mp h))]
    rcases Nat.eq_zero_or_pos j with rfl | hpos
    · rfl
    · have hcast : (j : Int) - 1 = (j - 1 : Nat) := by omega
      have hlt : j - 1 < next.length := by omega
      have hentry := h (j - 1) _ (List.getElem?_eq_getElem hlt)
      rw [if_pos (Int.natCast_pos.mpr hpos), if_pos hpos, hcast, getItem_of_lt hlt]
      refine congrArg Except.ok (Prod.ext rfl ?_)
      change next[j - 1] = ((next[j - 1]?.getD 0).toNat : Int)
      rw [List.getElem?_eq_getElem hlt, Option.getD_some, Int.toNat_of_nonneg hentry.1]

/-- The loop is the matcher that falls back by the table. A round that does not move on in
    the source makes the match shorter. -/
theorem kmpLoop_eq {source subStr : List α} {next : List Int} (hlen : next.length = subStr.length)
    (h : Bounded next) (fuel : Nat) : ∀ i j : Nat, i ≤ source.length → j < subStr.length →
      2 * (source.length - i) + j ≤ fuel →
      kmpLoop source subStr next fuel i j =
        some (.ok ((fallback next h).finds subStr j (source.drop i))) := by
  induction fuel with
  | zero =>
      intro i j hi hj hfuel
      rw [kmpLoop_of_end next 0 (by omega), List.drop_eq_nil_of_le (by omega)]
      rfl
  | succ fuel ih =>
      intro i j hi hj hfuel
      rcases Nat.lt_or_eq_of_le hi with hlt | rfl
      · have hround := kmpRound_eq hlen h hlt hj
        rw [List.drop_eq_getElem_cons hlt]
        by_cases heq : subStr[j]? = some source[i]
        · rw [if_pos heq] at hround
          rw [kmpLoop_of_round fuel (by omega) (by omega) hround, Table.finds,
            Table.step_of_eq _ heq]
          by_cases hend : j + 1 = subStr.length
          · rw [if_pos (by omega), decide_eq_true hend, Bool.true_or]
          · rw [if_neg (by omega), decide_eq_false hend, Bool.false_or]
            exact ih (i + 1) (j + 1) hlt (by omega) (by omega)
        · rw [if_neg heq] at hround
          rcases Nat.eq_zero_or_pos j with rfl | hpos
          · rw [if_neg (Nat.lt_irrefl 0)] at hround
            rw [kmpLoop_of_round fuel (by omega) (by omega) hround, if_neg (by omega), Table.finds,
              Table.step_zero _ heq, decide_eq_false (by omega), Bool.false_or]
            exact ih (i + 1) 0 hlt hj (by omega)
          · rw [if_pos hpos] at hround
            -- The source stays where it is, and the match gets shorter.
            have hback := (fallback next h).back_lt j hpos
            rw [kmpLoop_of_round fuel (by omega) (by omega) hround, if_neg (by omega), Table.finds,
              Table.step_of_pos _ heq hpos]
            have hrest := ih i _ hi (Nat.lt_trans hback hj) (by omega)
            rw [List.drop_eq_getElem_cons hlt] at hrest
            exact hrest
      · rw [kmpLoop_of_end next _ (by omega), List.drop_length]
        rfl

/-- The search stays within its arrays, and ends after at most two rounds for each character
    of the source. -/
theorem kmp_terminates (source subStr : List α) :
    ∃ next, buildNextTable subStr = .ok next ∧ next.length = subStr.length ∧ Bounded next ∧
      ∃ b, kmp (2 * source.length) source subStr = some (.ok b) := by
  rcases buildNextTable_total subStr with ⟨next, hnext, hlen, hbounded⟩
  refine ⟨next, hnext, hlen, hbounded, ?_⟩
  rw [kmp, hnext]
  rcases Nat.eq_zero_or_pos subStr.length with hzero | hpos
  · exact ⟨false, kmpLoop_of_end next _ (by omega)⟩
  · exact ⟨_, kmpLoop_eq hlen hbounded _ 0 0 (Nat.zero_le _) hpos (by omega)⟩

end KmpSample

end BlogSample
