import BlogSample.KmpSample.Exactness
import BlogSample.Theory.Borders

/-!
# The Entries of the Table

The entry of a position is meant to be the longest border of the pattern up to that
position. `Build_NextTable` reads each position once: if the border before it does not
go on with it, the next shorter one is taken over for the position after it, whether
or not that one goes on here.

Two things then have to be the case for the entries to be right. At the position
itself there must be no border, since the entry is left zero. And what was taken over
is not a border of what has been read, so it must not go on either, nor may another
border begin, until falling back from position to position has used it up. A border
that does go on brings the loop back to the right state.

## Main definitions

* `Rounds`: How much is matched before each round of the loop, and what it writes.
* `borderChain`: The next shorter border, some times over.
* `OneFallback`: Falling back once at each position is enough.
* `Drifts`: What is matched is left of a border that did not go on.
* `Entries`: The table has the borders up to a position.

## Theorems

* `exists_rounds`: What the loop has done.
* `Rounds.entries_of_oneFallback`: If falling back once is enough, the entries are right.
* `Rounds.oneFallback_of_entries`: If the entries are right, falling back once was enough.
* `buildNextTable_border_iff`: For which patterns the table consists of the borders.
* `fallsBackRight_of_oneFallback`: With such a table the search is exact.
-/

namespace BlogSample

namespace KmpSample

open DotNet Matching

variable {α : Type} [DecidableEq α] {s : List α} {next : List Int} {matched : Nat → Nat}

/-! ### What the loop has done -/

/-- A table, and how much was matched before each round of the loop that has built it. Each
    round writes one entry. -/
structure Rounds (s : List α) (next : List Int) (matched : Nat → Nat) : Prop where
  length : next.length = s.length
  first : 0 < s.length → next[0]? = some 0
  start : matched 1 = 0
  lt : ∀ i, 0 < i → i ≤ s.length → matched i < i
  goesOn : ∀ i, 0 < i → i < s.length → s[matched i]? = s[i]? →
    matched (i + 1) = matched i + 1 ∧ next[i]? = some ((matched i + 1 : Nat) : Int)
  fallsBack : ∀ i, 0 < i → i < s.length → s[matched i]? ≠ s[i]? →
    next[matched i - 1]? = some (matched (i + 1) : Int) ∧ next[i]? = some 0

/-- What the loop keeps: nothing has been written from the next position on. -/
structure Unwritten (s : List α) (b : Building) (i : Nat) : Prop where
  ok : TableOk s b i
  zero : ∀ k, i ≤ k → k < s.length → b.res[k]? = some 0

omit [DecidableEq α] in
theorem unwritten_start (s : List α) : Unwritten s ⟨List.replicate s.length 0, 0⟩ 1 :=
  ⟨tableOk_start s, fun k _ hk => by rw [List.getElem?_replicate, if_pos hk]⟩

/-- A round writes the entry of its position, which was zero. -/
theorem Unwritten.buildRound_eq {b : Building} {i p q : Nat} (hb : Unwritten s b i)
    (hi : i < s.length) (hp : b.prefix_len = p) (hback : b.back = .ok (q : Int)) :
    buildRound s b i = .ok
      ⟨b.res.set i (if s[p]? = s[i]? then ((p + 1 : Nat) : Int) else 0),
        if s[p]? = s[i]? then ((p + 1 : Nat) : Int) else q⟩ := by
  rw [KmpSample.buildRound_eq hb.ok hi hp hback]
  by_cases hfit : s[p]? = s[i]?
  · rw [if_pos hfit, if_pos hfit, if_pos hfit]
  · have hsame : b.res.set i 0 = b.res := by
      rcases List.getElem?_eq_some_iff.mp (hb.zero i (Nat.le_refl i) hi) with ⟨hlt, hval⟩
      rw [← hval, List.set_getElem_self]
    rw [if_neg hfit, if_neg hfit, if_neg hfit, hsame, ite_self]

/-- A round leaves the entries before its position. -/
theorem Unwritten.round {b b' : Building} {i : Nat} (hb : Unwritten s b i) (hi : i < s.length)
    (h : buildRound s b i = .ok b') :
    Unwritten s b' (i + 1) ∧ (∀ k < i, b'.res[k]? = b.res[k]?) ∧
      (s[b.prefix_len.toNat]? = s[i]? →
        b'.prefix_len = b.prefix_len + 1 ∧ b'.res[i]? = some (b.prefix_len + 1)) ∧
      (s[b.prefix_len.toNat]? ≠ s[i]? →
        b.res[b.prefix_len.toNat - 1]? = some b'.prefix_len ∧ b'.res[i]? = some 0) := by
  rcases hb.ok.prefix_len with ⟨p, hp, -⟩
  rcases hb.ok.back_total hi hp with ⟨q, hback, -, hq⟩
  rcases buildRound_total hb.ok hi with ⟨b'', hround, hok⟩
  rw [h, Except.ok.injEq] at hround
  subst hround
  rw [hb.buildRound_eq hi hp hback, Except.ok.injEq] at h
  subst h
  have hlt : i < b.res.length := hb.ok.length ▸ hi
  -- Only the entry of the position can change.
  have hkeep (k : Nat) (hk : k ≠ i) (x : Int) : (b.res.set i x)[k]? = b.res[k]? :=
    List.getElem?_set_ne (Ne.symm hk)
  rw [hp, Int.toNat_natCast]
  refine ⟨⟨hok, fun k hle hk => ?_⟩, fun k hk => hkeep k (Nat.ne_of_lt hk) _, fun hfit => ?_,
    fun hfit => ⟨?_, ?_⟩⟩
  · rw [hkeep k (by omega)]
    exact hb.zero k (by omega) hk
  · rw [List.getElem?_set_self hlt]
    exact ⟨if_pos hfit, congrArg some (if_pos hfit)⟩
  · rw [hq]
    exact congrArg some (if_neg hfit).symm
  · rw [if_neg hfit, List.getElem?_set_self hlt]

/-- The states of the loop before each position. -/
structure States (s : List α) (state : Nat → Building) : Prop where
  first : state 1 = ⟨List.replicate s.length 0, 0⟩
  unwritten : ∀ i, 0 < i → i ≤ 1 + (s.length - 1) → Unwritten s (state i) i
  round : ∀ i, 0 < i → i < s.length → buildRound s (state i) i = .ok (state (i + 1))

theorem exists_loop (s : List α) :
    ∃ state, buildNextTable s = .ok (state (1 + (s.length - 1))).res ∧ States s state := by
  rcases buildNextTable_total s with ⟨next, hnext, -⟩
  rcases bind_eq_ok hnext with ⟨b, hloop, hb⟩
  cases hb
  rcases exists_states _ 1 _ hloop with ⟨state, hfirst, rfl, hround⟩
  refine ⟨state, hnext, hfirst, fun i hi => ?_, fun i hi hlt => hround i hi (by omega)⟩
  induction i, hi using Nat.le_induction with
  | base => exact fun _ => hfirst ▸ unwritten_start s
  | succ i hi ih => exact fun hle => ((ih (by omega)).round (by omega) (hround i hi hle)).1

namespace States

variable {state : Nat → Building}

/-- What has been written stays. -/
theorem keeps (h : States s state) {i k : Nat} (hk : k < i) (d : Nat) :
    i + d ≤ 1 + (s.length - 1) → (state (i + d)).res[k]? = (state i).res[k]? := by
  induction d with
  | zero => exact fun _ => rfl
  | succ d ih =>
      intro hle
      have hround := (h.unwritten (i + d) (by omega) (by omega)).round (by omega)
        (h.round (i + d) (by omega) (by omega))
      rw [← ih (by omega)]
      exact hround.2.1 k (by omega)

theorem getElem?_last (h : States s state) {i k : Nat} (hk : k < i)
    (hi : i ≤ 1 + (s.length - 1)) :
    (state (1 + (s.length - 1))).res[k]? = (state i).res[k]? := by
  have hlast := h.keeps hk (1 + (s.length - 1) - i) (by omega)
  rw [Nat.add_sub_cancel' hi] at hlast
  exact hlast

theorem prefix_len (h : States s state) {i : Nat} (hpos : 0 < i)
    (hi : i ≤ s.length) :
    (state i).prefix_len = ((state i).prefix_len.toNat : Int) ∧
      (state i).prefix_len.toNat < i := by
  rcases (h.unwritten i hpos (by omega)).ok.prefix_len with ⟨p, hp, hlt⟩
  rw [hp, Int.toNat_natCast]
  exact ⟨rfl, hlt⟩

end States

/-- The table is built in such rounds. -/
theorem exists_rounds (s : List α) :
    ∃ next matched, buildNextTable s = .ok next ∧ Rounds s next matched := by
  rcases exists_loop s with ⟨state, hnext, h⟩
  have hround (i : Nat) (hpos : 0 < i) (hi : i < s.length) :=
    (h.unwritten i hpos (by omega)).round hi (h.round i hpos hi)
  refine ⟨_, fun i => (state i).prefix_len.toNat, hnext, ?_, fun hpos => ?_, ?_,
    fun i hpos hle => (h.prefix_len hpos hle).2, fun i hpos hi hfit => ?_, fun i hpos hi hfit => ?_⟩
  · exact (h.unwritten _ (by omega) (Nat.le_refl _)).ok.length
  · rw [h.getElem?_last Nat.one_pos (by omega), h.first, List.getElem?_replicate, if_pos hpos]
  · rw [h.first]
    rfl
  · have hwrite := (hround i hpos hi).2.2.1 hfit
    rw [h.getElem?_last (Nat.lt_succ_self i) (by omega), hwrite.2, hwrite.1,
      (h.prefix_len hpos (Nat.le_of_lt hi)).1]
    exact ⟨rfl, rfl⟩
  · have hwrite := (hround i hpos hi).2.2.2 hfit
    have hlt := (h.prefix_len hpos (Nat.le_of_lt hi)).2
    rw [h.getElem?_last (Nat.lt_succ_self i) (by omega), h.getElem?_last (i := i) (by omega)
      (by omega), hwrite.2, hwrite.1, ← (h.prefix_len (Nat.succ_pos i) hi).1]
    exact ⟨rfl, rfl⟩

/-! ### Falling back once -/

/-- The longest border of the first `i` characters, its longest border, and so on. -/
def borderChain (s : List α) (i : Nat) : Nat → Nat
  | 0 => i
  | k + 1 => border (s.take (borderChain s i k))

/-- Falling back once at each position is enough. Where the longest border does not go on,
    there is no border, and what was fallen back to does not go on at the positions after it,
    nor does the pattern begin there, until nothing is left of it. -/
def OneFallback (s : List α) : Prop :=
  ∀ i, 0 < i → i < s.length → s[border (s.take i)]? ≠ s[i]? →
    border (s.take (i + 1)) = 0 ∧
      ∀ k, 0 < k → i + k < s.length → 0 < borderChain s i (k + 1) →
        s[0]? ≠ s[i + k]? ∧ s[borderChain s i (k + 1)]? ≠ s[i + k]?

theorem borderChain_pos {i k : Nat} (h : 0 < borderChain s i (k + 1)) : 0 < borderChain s i k := by
  rcases Nat.eq_zero_or_pos (borderChain s i k) with hzero | hpos
  · rw [borderChain, hzero] at h
    exact absurd h (Nat.lt_irrefl 0)
  · exact hpos

/-- What is matched is not a border, but what is left after the border of an earlier position
    did not go on. -/
def Drifts (s : List α) (i p : Nat) : Prop :=
  border (s.take i) = 0 ∧ 0 < p ∧ ∃ j k, 0 < j ∧ 0 < k ∧ j + k = i ∧
    s[border (s.take j)]? ≠ s[j]? ∧ p = borderChain s j (k + 1)

/-- The table has the borders up to a position. -/
def Entries (s : List α) (next : List Int) (n : Nat) : Prop :=
  ∀ i < n, next[i]? = some (border (s.take (i + 1)) : Int)

theorem Entries.succ {i : Nat} (hright : Entries s next i)
    (hentry : next[i]? = some (border (s.take (i + 1)) : Int)) : Entries s next (i + 1) := by
  intro k hk
  rcases Nat.lt_succ_iff_lt_or_eq.mp hk with hlt | rfl
  · exact hright k hlt
  · exact hentry

namespace Rounds

variable (h : Rounds s next matched)

include h

/-- Where the characters differ, the loop goes over to the border of what was matched. -/
theorem matched_succ {n i : Nat} (hright : Entries s next n) (hn : matched i ≤ n)
    (hpos : 0 < i) (hi : i < s.length) (hfit : s[matched i]? ≠ s[i]?) :
    matched (i + 1) = border (s.take (matched i)) := by
  have hback := (h.fallsBack i hpos hi hfit).1
  -- With nothing matched, the code does not look at the table.
  rcases Nat.eq_zero_or_pos (matched i) with hzero | hmatched
  · rw [hzero, h.first (by omega), Option.some.injEq] at hback
    rw [hzero]
    exact Int.ofNat_inj.mp hback.symm
  · rw [hright (matched i - 1) (by omega), Nat.sub_add_cancel hmatched, Option.some.injEq] at hback
    exact Int.ofNat_inj.mp hback.symm

/-- If falling back once is enough, the entries are right, and what is matched is the border
    or what is left of an earlier one. -/
theorem entries_of_oneFallback (hone : OneFallback s) {i : Nat} (hpos : 0 < i) :
    i ≤ s.length → Entries s next i ∧
      (matched i = border (s.take i) ∨ Drifts s i (matched i)) := by
  induction i, hpos using Nat.le_induction with
  | base =>
      intro hle
      have hzero : border (s.take 1) = 0 := border_of_length_le_one (List.length_take_le 1 s)
      have hentry : next[0]? = some (border (s.take 1) : Int) := by
        rw [h.first hle, hzero]
        rfl
      have hnone : Entries s next 0 := fun i hi => absurd hi (Nat.not_lt_zero i)
      exact ⟨hnone.succ hentry, .inl (h.start.trans hzero.symm)⟩
  | succ i hpos ih =>
      intro hi
      rcases ih (Nat.le_of_lt hi) with ⟨hright, hmatched⟩
      -- A position at which it falls back, or has been falling back.
      have hfalls {j k : Nat} (hj : 0 < j) (hjk : j + k = i)
          (hne : s[border (s.take j)]? ≠ s[j]?) (hp : matched i = borderChain s j (k + 1))
          (hfit : s[matched i]? ≠ s[i]?) (hzero : border (s.take (i + 1)) = 0) :
          Entries s next (i + 1) ∧
            (matched (i + 1) = border (s.take (i + 1)) ∨ Drifts s (i + 1) (matched (i + 1))) := by
        have hsucc := h.matched_succ hright (Nat.le_of_lt (h.lt i hpos (Nat.le_of_lt hi))) hpos hi
          hfit
        rw [hp] at hsucc
        have hentry : next[i]? = some (border (s.take (i + 1)) : Int) := by
          rw [(h.fallsBack i hpos hi hfit).2, hzero]
          rfl
        refine ⟨hright.succ hentry, ?_⟩
        rcases Nat.eq_zero_or_pos (matched (i + 1)) with heq | hgt
        · exact .inl (heq.trans hzero.symm)
        · exact .inr ⟨hzero, hgt, j, k + 1, hj, Nat.succ_pos k, by omega, hne, hsucc⟩
      rcases hmatched with hp | ⟨hzero, hgt, j, k, hj, hk, hjk, hne, hp⟩
      · by_cases hfit : s[matched i]? = s[i]?
        -- The border goes on.
        · rcases h.goesOn i hpos hi hfit with ⟨hsucc, hentry⟩
          rw [hp] at hfit hsucc hentry
          have hborder := border_take_succ_of_eq hpos hi hfit
          refine ⟨hright.succ ?_, .inl (hsucc.trans hborder.symm)⟩
          rw [hentry, hborder]
        · have hne := hfit
          rw [hp] at hne
          exact hfalls hpos (Nat.add_zero i) hne hp hfit (hone i hpos hi hne).1
      -- What is left of an earlier border goes on here neither, and none begins.
      · subst hjk
        have hrest := (hone j hj (by omega) hne).2 k hk hi (hp ▸ hgt)
        rw [← hp] at hrest
        exact hfalls hj rfl hne hp hrest.2 (border_take_succ_of_zero hpos hi hzero hrest.1)

/-- If the entries are right, what is matched is the border wherever there is one. -/
theorem matched_eq_border (hright : Entries s next s.length) {i : Nat} (hi : i < s.length)
    (hborder : 0 < border (s.take i)) : matched i = border (s.take i) := by
  have hone : 1 < i := by
    by_contra hle
    have hzero : border (s.take i) = 0 := by
      refine border_of_length_le_one ?_
      have hlen := List.length_take_le i s
      omega
    omega
  rcases Nat.exists_eq_add_of_lt hone with ⟨j, rfl⟩
  have hentry := hright (1 + j) (by omega)
  by_cases hfit : s[matched (1 + j)]? = s[1 + j]?
  -- The entry before the position was written when the border went on.
  · rcases h.goesOn (1 + j) (by omega) (by omega) hfit with ⟨hsucc, hnext⟩
    rw [hnext, Option.some.injEq] at hentry
    exact hsucc.trans (Int.ofNat_inj.mp hentry)
  · rw [(h.fallsBack (1 + j) (by omega) (by omega) hfit).2, Option.some.injEq] at hentry
    have hzero := Int.ofNat_inj.mp (Int.natCast_zero.trans hentry)
    exact absurd hborder (by rw [← hzero]; exact Nat.lt_irrefl 0)

/-- If the entries are right, what is fallen back to goes on nowhere, and no border begins. -/
theorem not_goesOn (hright : Entries s next s.length) {i : Nat} (hpos : 0 < i)
    (hi : i < s.length) (hzero : border (s.take i) = 0) (hgt : 0 < matched i) :
    s[matched i]? ≠ s[i]? ∧ s[0]? ≠ s[i]? ∧ border (s.take (i + 1)) = 0 := by
  have hentry := hright i hi
  have hle := border_take_succ_le hi
  have hfit : s[matched i]? ≠ s[i]? := by
    intro heq
    rw [(h.goesOn i hpos hi heq).2, Option.some.injEq] at hentry
    have hsucc := Int.ofNat_inj.mp hentry
    omega
  rw [(h.fallsBack i hpos hi hfit).2, Option.some.injEq] at hentry
  have hnone : border (s.take (i + 1)) = 0 := (Int.ofNat_inj.mp hentry).symm
  refine ⟨hfit, fun heq => ?_, hnone⟩
  have hsucc := border_take_succ_of_eq hpos hi (by rw [hzero]; exact heq)
  omega

/-- If the entries are right, falling back once was enough. -/
theorem oneFallback_of_entries (hright : Entries s next s.length) : OneFallback s := by
  intro i hpos hi hne
  rcases Nat.eq_zero_or_pos (border (s.take i)) with hzero | hgt
  -- There is nothing to fall back to.
  · rw [hzero] at hne
    refine ⟨border_take_succ_of_zero hpos hi hzero hne, fun k _ _ hk => ?_⟩
    have hnone (k : Nat) : borderChain s i (k + 1) = 0 := by
      induction k with
      | zero => exact hzero
      | succ k ih =>
          rw [borderChain, ih]
          rfl
    exact absurd hk (by rw [hnone]; exact Nat.lt_irrefl 0)
  · have hp := h.matched_eq_border hright hi hgt
    have hfit : s[matched i]? ≠ s[i]? := hp ▸ hne
    have hentry := hright i hi
    rw [(h.fallsBack i hpos hi hfit).2, Option.some.injEq] at hentry
    have hnone : border (s.take (i + 1)) = 0 := (Int.ofNat_inj.mp hentry).symm
    have hmatched (j : Nat) (hj : 0 < j) (hlt : j < s.length) : matched j ≤ s.length :=
      Nat.le_of_lt (Nat.lt_trans (h.lt j hj (Nat.le_of_lt hlt)) hlt)
    -- What is left is what is matched, position by position.
    have hleft (k : Nat) : i + (k + 1) < s.length → 0 < borderChain s i (k + 2) →
        border (s.take (i + (k + 1))) = 0 ∧ matched (i + (k + 1)) = borderChain s i (k + 2) := by
      induction k with
      | zero =>
          intro _ _
          refine ⟨hnone, ?_⟩
          rw [h.matched_succ hright (hmatched i hpos hi) hpos hi hfit, hp]
          rfl
      | succ k ih =>
          intro hlt hk
          rcases ih (by omega) (borderChain_pos hk) with ⟨hzero, hsame⟩
          have hrest := h.not_goesOn hright (i := i + (k + 1)) (by omega) (by omega) hzero
            (hsame ▸ borderChain_pos hk)
          refine ⟨hrest.2.2, ?_⟩
          have hsucc := h.matched_succ hright (hmatched (i + (k + 1)) (by omega) (by omega))
            (by omega) (by omega) hrest.1
          rw [hsame] at hsucc
          exact hsucc
    refine ⟨hnone, fun k hk hlt hleftover => ?_⟩
    rcases k with _ | k
    · exact absurd hk (Nat.lt_irrefl 0)
    · rcases hleft k hlt hleftover with ⟨hzero, hsame⟩
      have hrest := h.not_goesOn hright (by omega) hlt hzero (hsame ▸ hleftover)
      rw [← hsame]
      exact ⟨hrest.2.1, hrest.1⟩

end Rounds

/-- The table consists of the longest borders if and only if falling back once at each position
    is enough. -/
theorem buildNextTable_border_iff (s : List α) :
    (∃ next, buildNextTable s = .ok next ∧ next.length = s.length ∧
      ∀ i < s.length, next[i]? = some (border (s.take (i + 1)) : Int)) ↔ OneFallback s := by
  rcases exists_rounds s with ⟨next, matched, hnext, h⟩
  constructor
  · rintro ⟨next', hnext', -, hright⟩
    rw [hnext, Except.ok.injEq] at hnext'
    rw [← hnext'] at hright
    exact h.oneFallback_of_entries hright
  · intro hone
    refine ⟨next, hnext, h.length, ?_⟩
    rcases Nat.eq_zero_or_pos s.length with hzero | hpos
    · rw [hzero]
      exact fun i hi => absurd hi (Nat.not_lt_zero i)
    · exact (h.entries_of_oneFallback hone hpos (Nat.le_refl _)).1

/-- In `abaa` the border of `aba` does not go on with the last `a`. Falling back leaves nothing,
    and that `a` is not compared with the first one, which is the border. -/
theorem buildNextTable_abaa : buildNextTable "abaa".toList = .ok [0, 0, 1, 0] ∧
    border ("abaa".toList.take 4) = 1 := by
  decide

/-- With a table of the longest borders the search is exact. -/
theorem fallsBackRight_of_oneFallback (hone : OneFallback s) : FallsBackRight s := by
  rcases exists_rounds s with ⟨next, matched, hnext, h⟩
  rcases buildNextTable_total s with ⟨next', hnext', hlen, hbounded⟩
  rw [hnext, Except.ok.injEq] at hnext'
  subst hnext'
  refine (faithful_iff hnext hlen hbounded).mp (Table.faithful_of_border (fun j hpos hj => ?_))
  have hright := (h.entries_of_oneFallback hone (hpos.trans hj) (Nat.le_refl _)).1
  change (next[j - 1]?.getD 0).toNat = border (s.take j)
  rw [hright (j - 1) (by omega), Nat.sub_add_cancel hpos, Option.getD_some, Int.toNat_natCast]

/-- In `abab` a beginning comes again, and the search for it is exact. -/
theorem kmp_exact_abab : FallsBackRight "abab".toList ∧ ∀ source,
    kmp (2 * source.length) source "abab".toList = some (.ok true) ↔ "abab".toList <:+: source := by
  have hone : OneFallback "abab".toList := by
    intro i hpos hi hne
    have hi : i < 4 := hi
    have hi : i = 1 ∨ i = 2 ∨ i = 3 := by omega
    rcases hi with rfl | rfl | rfl
    -- Nothing is matched before the second character, so there is nothing to fall back to.
    · refine ⟨by decide, fun k hk hlt hchain => ?_⟩
      have hlt : 1 + k < 4 := hlt
      have hk : k = 1 ∨ k = 2 := by omega
      rcases hk with rfl | rfl
      · exact absurd hchain (by decide)
      · exact absurd hchain (by decide)
    · exact absurd hne (by decide)
    · exact absurd hne (by decide)
  have hright := fallsBackRight_of_oneFallback hone
  exact ⟨hright, (kmp_exact_iff "abab".toList (by decide)).mpr hright⟩

end KmpSample

end BlogSample
