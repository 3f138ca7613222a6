import Mathlib.Algebra.BigOperators.Group.Finset.Basic
import Mathlib.Algebra.Order.BigOperators.Group.Multiset
import Mathlib.Data.Finset.Max
import Mathlib.InformationTheory.Coding.KraftMcMillan
import Mathlib.Tactic.Ring

/-!
# Optimal Prefix Codes

Merging the two least weights again and again, until one is left, costs no more
than any prefix code for the weights does.

Of a code only the lengths of its words matter, and of these only that they fit:
that words of a common length, of which each code word takes those it is the
beginning of, are enough for all. So a code is here a collection of weights with
lengths. The longest two lengths may go to the two least weights without costing
more. If they are the same, the two weights are merged. If the longest length
occurs only once, it can be shortened, since the space that the others leave is
then more than what it takes.

## Main definitions

* `PrefixFree`: No code word is the beginning of another one.
* `cost`: The sum of the weights times the lengths.
* `space`, `Fits`: Lengths that code words may have.
* `Merges`: Merging the two least weights, and the cost of it.

## Theorems

* `exchange`: The least weight may have the greatest length.
* `fits_pred`: A longest length that occurs once can be shortened.
* `Merges.le_cost`: Merging costs no more than lengths that fit.
* `PrefixFree.fits`: The lengths of a prefix code fit.
* `Merges.le_of_prefixFree`: Merging costs no more than a prefix code.
-/

namespace BlogSample

namespace OptimalCode

universe u

/-- No code word is the beginning of another one. -/
def PrefixFree {α : Type u} (S : Finset α) (code : α → List Bool) : Prop :=
  ∀ x ∈ S, ∀ y ∈ S, x ≠ y → ¬code x <+: code y

/-- The sum of the weights times the lengths. -/
def cost (L : Multiset (ℕ × ℕ)) : ℕ :=
  (L.map (fun x => x.1 * x.2)).sum

/-- The number of words of length `M` that begin with one of the code words. -/
def space (M : ℕ) (ls : Multiset ℕ) : ℕ :=
  (ls.map (fun l => 2 ^ (M - l))).sum

/-- Code words of these lengths need no more words of length `M` than there are. -/
structure Fits (M : ℕ) (ls : Multiset ℕ) : Prop where
  le : ∀ l ∈ ls, l ≤ M
  space_le : space M ls ≤ 2 ^ M

/-- Merging the two least weights until one is left, where a merge costs the sum of
    the two. -/
inductive Merges : Multiset ℕ → ℕ → Prop
  | single (w : ℕ) : Merges {w} 0
  | merge (a b : ℕ) (W : Multiset ℕ) (c : ℕ) :
      a ≤ b → (∀ x ∈ W, b ≤ x) → Merges ((a + b) ::ₘ W) c → Merges (a ::ₘ b ::ₘ W) (c + (a + b))

@[simp]
theorem cost_cons (x : ℕ × ℕ) (L : Multiset (ℕ × ℕ)) : cost (x ::ₘ L) = x.1 * x.2 + cost L := by
  unfold cost
  rw [Multiset.map_cons, Multiset.sum_cons]

@[simp]
theorem space_cons (M l : ℕ) (ls : Multiset ℕ) :
    space M (l ::ₘ ls) = 2 ^ (M - l) + space M ls := by
  unfold space
  rw [Multiset.map_cons, Multiset.sum_cons]

/-! ### Exchanging lengths -/

/-- Some element has the greatest length. -/
theorem exists_longest (L : Multiset (ℕ × ℕ)) (hL : L ≠ 0) :
    ∃ x ∈ L, ∀ y ∈ L, y.2 ≤ x.2 := by
  have hne : L.toFinset.Nonempty := by
    rcases Multiset.exists_mem_of_ne_zero hL with ⟨x, hx⟩
    exact ⟨x, Multiset.mem_toFinset.mpr hx⟩
  rcases L.toFinset.exists_max_image Prod.snd hne with ⟨x, hx, hmax⟩
  exact ⟨x, Multiset.mem_toFinset.mp hx, fun y hy => hmax y (Multiset.mem_toFinset.mpr hy)⟩

/-- The least weight may have the greatest length. -/
theorem exchange {L : Multiset (ℕ × ℕ)} {a : ℕ} {W : Multiset ℕ}
    (hW : L.map Prod.fst = a ::ₘ W) (ha : ∀ x ∈ W, a ≤ x) :
    ∃ m R, (∀ l ∈ R.map Prod.snd, l ≤ m) ∧ R.map Prod.fst = W ∧
      L.map Prod.snd = m ::ₘ R.map Prod.snd ∧ a * m + cost R ≤ cost L := by
  have hmem : a ∈ L.map Prod.fst := by
    rw [hW]
    exact Multiset.mem_cons_self a W
  rcases Multiset.mem_map.mp hmem with ⟨⟨a, l⟩, hl, rfl⟩
  rcases Multiset.exists_cons_of_mem hl with ⟨L, rfl⟩
  simp only [Multiset.map_cons, Multiset.cons_inj_right] at hW
  rcases exists_longest ((a, l) ::ₘ L) (Multiset.cons_ne_zero) with ⟨x, hx, hmax⟩
  simp only [Multiset.mem_cons, forall_eq_or_imp] at hmax
  rcases Multiset.mem_cons.mp hx with rfl | hx
  · refine ⟨l, L, fun k hk => ?_, hW, Multiset.map_cons _ _ _, ?_⟩
    · rcases Multiset.mem_map.mp hk with ⟨y, hy, rfl⟩
      exact hmax.2 y hy
    · rw [cost_cons]
  -- The element with the greatest length gets the length of the least weight.
  · rcases Multiset.exists_cons_of_mem hx with ⟨R, rfl⟩
    rcases x with ⟨b, m⟩
    have hab : a ≤ b := by
      refine ha b ?_
      rw [← hW]
      exact Multiset.mem_map_of_mem Prod.fst (Multiset.mem_cons_self (b, m) R)
    simp only [Multiset.mem_cons, forall_eq_or_imp] at hmax
    refine ⟨m, (b, l) ::ₘ R, fun k hk => ?_, ?_, ?_, ?_⟩
    · rcases Multiset.mem_map.mp hk with ⟨y, hy, rfl⟩
      rcases Multiset.mem_cons.mp hy with rfl | hy
      · exact hmax.1
      · exact hmax.2.2 y hy
    · rw [← hW, Multiset.map_cons, Multiset.map_cons]
    · simp only [Multiset.map_cons]
      exact Multiset.cons_swap l m _
    · simp only [cost_cons]
      -- The larger weight gets the shorter length.
      have hswap : a * m + b * l ≤ a * l + b * m := by
        rcases Nat.exists_eq_add_of_le hab with ⟨d, rfl⟩
        rw [Nat.add_mul, Nat.add_mul]
        have hd := Nat.mul_le_mul_left d hmax.1
        omega
      omega

/-! ### Lengths that fit -/

/-- A longest length that occurs once can be shortened. -/
theorem fits_pred {M m : ℕ} {ls : Multiset ℕ} (h : Fits M ((m + 1) ::ₘ ls))
    (hls : ∀ l ∈ ls, l ≤ m) : Fits M (m ::ₘ ls) := by
  have hm : m + 1 ≤ M := h.le _ (Multiset.mem_cons_self _ _)
  have hspace := h.space_le
  -- All other words take a multiple of what the shortened one takes.
  have hdvd : 2 ^ (M - m) ∣ space M ls := by
    unfold space
    refine Multiset.dvd_sum (fun x hx => ?_)
    rcases Multiset.mem_map.mp hx with ⟨l, hl, rfl⟩
    exact Nat.pow_dvd_pow 2 (Nat.sub_le_sub_left (hls l hl) M)
  have hdvdM : 2 ^ (M - m) ∣ 2 ^ M := Nat.pow_dvd_pow 2 (Nat.sub_le M m)
  refine ⟨fun l hl => ?_, ?_⟩
  · rcases Multiset.mem_cons.mp hl with rfl | hl
    · omega
    · exact h.le l (Multiset.mem_cons_of_mem hl)
  · rw [space_cons] at hspace ⊢
    rcases hdvd with ⟨q, hq⟩
    rcases hdvdM with ⟨r, hr⟩
    have hpos : 0 < 2 ^ (M - (m + 1)) := Nat.two_pow_pos _
    rw [hq, hr] at hspace ⊢
    have hlt : 2 ^ (M - m) * q < 2 ^ (M - m) * r := by omega
    have hqr : q + 1 ≤ r := Nat.lt_of_mul_lt_mul_left hlt
    calc 2 ^ (M - m) + 2 ^ (M - m) * q = 2 ^ (M - m) * (q + 1) := by ring
      _ ≤ 2 ^ (M - m) * r := Nat.mul_le_mul_left _ hqr

/-- Two words of one length leave room for their common beginning. -/
theorem fits_merge {M m : ℕ} {ls : Multiset ℕ} (h : Fits M ((m + 1) ::ₘ (m + 1) ::ₘ ls)) :
    Fits M (m ::ₘ ls) := by
  have hm : m + 1 ≤ M := h.le _ (Multiset.mem_cons_self _ _)
  have hspace := h.space_le
  refine ⟨fun l hl => ?_, ?_⟩
  · rcases Multiset.mem_cons.mp hl with rfl | hl
    · omega
    · exact h.le l (Multiset.mem_cons_of_mem (Multiset.mem_cons_of_mem hl))
  · rw [space_cons, space_cons] at hspace
    rw [space_cons]
    have hdouble : 2 ^ (M - m) = 2 ^ (M - (m + 1)) + 2 ^ (M - (m + 1)) := by
      rw [← Nat.two_mul, ← Nat.pow_succ', Nat.succ_eq_add_one,
        show M - (m + 1) + 1 = M - m by omega]
    omega

/-- Two words do not fit if one of them is empty. -/
theorem not_fits_zero {M l : ℕ} {ls : Multiset ℕ} : ¬Fits M (0 ::ₘ l ::ₘ ls) := by
  intro h
  have hspace := h.space_le
  rw [space_cons, space_cons, Nat.sub_zero] at hspace
  have hpos : 0 < 2 ^ (M - l) := Nat.two_pow_pos _
  omega

/-- Merging costs no more than lengths that fit. -/
theorem Merges.le_cost {W : Multiset ℕ} {c : ℕ} (h : Merges W c) {M : ℕ} :
    ∀ L : Multiset (ℕ × ℕ), L.map Prod.fst = W → Fits M (L.map Prod.snd) → c ≤ cost L := by
  induction h with
  | single w => exact fun L _ _ => Nat.zero_le _
  | merge a b W c hab hb _ ih =>
      intro L
      -- The inner induction shortens a longest length until two words share it.
      induction hn : (L.map Prod.snd).sum using Nat.strongRecOn generalizing L with
      | ind n ihn =>
          intro hW hfits
          rcases exchange hW (Multiset.forall_mem_cons.mpr
            ⟨hab, fun x hx => Nat.le_trans hab (hb x hx)⟩) with ⟨m, R, hm, hR, hsnd, hcost⟩
          rcases exchange hR hb with ⟨m', R', hm', hR', hsnd', hcost'⟩
          have hmm : m' ≤ m := by
            refine hm m' ?_
            rw [hsnd']
            exact Multiset.mem_cons_self _ _
          rw [hsnd, hsnd'] at hfits
          cases m with
          | zero => exact absurd hfits not_fits_zero
          | succ m =>
              rcases Nat.lt_or_eq_of_le hmm with hlt | rfl
              -- The longest length occurs once.
              · have hshort : Fits M (m ::ₘ m' ::ₘ R'.map Prod.snd) := by
                  refine fits_pred hfits (Multiset.forall_mem_cons.mpr
                    ⟨Nat.le_of_lt_succ hlt, fun l hl => ?_⟩)
                  exact Nat.le_trans (hm' l hl) (Nat.le_of_lt_succ hlt)
                have hle := ihn _ (by
                    rw [← hn, hsnd, hsnd']
                    simp only [Multiset.map_cons, Multiset.sum_cons]
                    omega) ((a, m) ::ₘ (b, m') ::ₘ R') rfl
                  (by simp only [Multiset.map_cons, hR'])
                  (by simpa only [Multiset.map_cons] using hshort)
                simp only [cost_cons] at hle
                have ham : a * m ≤ a * (m + 1) := Nat.mul_le_mul_left a (Nat.le_succ m)
                omega
              -- The two least weights have the same length and are merged.
              · have hle := ih ((a + b, m) ::ₘ R') (by simp only [Multiset.map_cons, hR'])
                  (by simpa only [Multiset.map_cons] using fits_merge hfits)
                simp only [cost_cons] at hle
                have ha : a * (m + 1) = a * m + a := Nat.mul_succ a m
                have hb' : b * (m + 1) = b * m + b := Nat.mul_succ b m
                have hab' : (a + b) * m = a * m + b * m := Nat.add_mul a b m
                omega

/-! ### Prefix codes -/

section

variable {α : Type u} {S : Finset α} {code : α → List Bool}

/-- Where two words begin alike, they are the same. -/
theorem PrefixFree.eq_of_append_eq (h : PrefixFree S code) {x y : α} (hx : x ∈ S) (hy : y ∈ S)
    {u v : List Bool} (heq : code x ++ u = code y ++ v) : x = y := by
  by_contra hxy
  have hx' : code x <+: code y ++ v := heq ▸ List.prefix_append (code x) u
  rcases List.prefix_or_prefix_of_prefix hx' (List.prefix_append (code y) v) with hpre | hpre
  · exact h x hx y hy hxy hpre
  · exact h y hy x hx (Ne.symm hxy) hpre

theorem PrefixFree.injOn (h : PrefixFree S code) : Set.InjOn code S := by
  intro x hx y hy heq
  exact @PrefixFree.eq_of_append_eq α S code h x y hx hy [] [] (by rw [heq])

/-- A prefix code without the empty word can be decoded uniquely. -/
theorem PrefixFree.uniquelyDecodable (h : PrefixFree S code) (hne : ∀ x ∈ S, code x ≠ [])
    [DecidableEq (List Bool)] :
    InformationTheory.UniquelyDecodable (S.image code : Set (List Bool)) := by
  intro L₁
  induction L₁ with
  | nil =>
      intro L₂ _ hL₂ heq
      cases L₂ with
      | nil => rfl
      | cons w L₂ =>
          rcases Finset.mem_image.mp (hL₂ w List.mem_cons_self) with ⟨x, hx, rfl⟩
          exact absurd (List.append_eq_nil_iff.mp heq.symm).1 (hne x hx)
  | cons w L₁ ih =>
      intro L₂ hL₁ hL₂ heq
      rcases Finset.mem_image.mp (hL₁ w List.mem_cons_self) with ⟨x, hx, rfl⟩
      cases L₂ with
      | nil => exact absurd (List.append_eq_nil_iff.mp heq).1 (hne x hx)
      | cons v L₂ =>
          rcases Finset.mem_image.mp (hL₂ v List.mem_cons_self) with ⟨y, hy, rfl⟩
          rw [List.flatten_cons, List.flatten_cons] at heq
          -- The first words begin alike, so they are the same, and can be cut off.
          obtain rfl := h.eq_of_append_eq hx hy heq
          rw [ih L₂ (fun w hw => hL₁ w (List.mem_cons_of_mem _ hw))
            (fun w hw => hL₂ w (List.mem_cons_of_mem _ hw)) (List.append_cancel_left heq)]

/-- Kraft's inequality, counted in words of a common length. -/
theorem PrefixFree.space_le (h : PrefixFree S code) (hne : ∀ x ∈ S, code x ≠ []) {M : ℕ}
    (hM : ∀ x ∈ S, (code x).length ≤ M) : ∑ x ∈ S, 2 ^ (M - (code x).length) ≤ 2 ^ M := by
  have hkraft := InformationTheory.kraft_mcmillan_inequality (h.uniquelyDecodable hne)
  rw [Finset.sum_image h.injOn, Fintype.card_bool] at hkraft
  have hterm : ∀ x ∈ S, (2 : ℝ) ^ (M - (code x).length) =
      2 ^ M * (1 / ((2 : ℕ) : ℝ)) ^ (code x).length := by
    intro x hx
    rw [pow_sub₀ (2 : ℝ) (by norm_num) (hM x hx), Nat.cast_ofNat, one_div, inv_pow]
  have hreal : ∑ x ∈ S, (2 : ℝ) ^ (M - (code x).length) ≤ 2 ^ M := by
    rw [Finset.sum_congr rfl hterm, ← Finset.mul_sum]
    exact mul_le_of_le_one_right (by positivity) hkraft
  exact_mod_cast hreal

/-- The lengths of a prefix code fit. -/
theorem PrefixFree.fits (h : PrefixFree S code) :
    ∃ M, Fits M (S.val.map (fun x => (code x).length)) := by
  have hM : ∀ x ∈ S, (code x).length ≤ S.sup (fun x => (code x).length) := fun x hx =>
    Finset.le_sup (f := fun x => (code x).length) hx
  refine ⟨S.sup (fun x => (code x).length), fun l hl => ?_, ?_⟩
  · rcases Multiset.mem_map.mp hl with ⟨x, hx, rfl⟩
    exact hM x hx
  · unfold space
    rw [Multiset.map_map]
    change ∑ x ∈ S, 2 ^ (S.sup (fun x => (code x).length) - (code x).length) ≤ _
    by_cases hne : ∀ x ∈ S, code x ≠ []
    · exact h.space_le hne hM
    -- The empty word is the beginning of any other, so there is no other.
    · simp only [not_forall, not_not] at hne
      rcases hne with ⟨x, hx, hnil⟩
      have hsingle : S = {x} := by
        refine Finset.eq_singleton_iff_unique_mem.mpr ⟨hx, fun y hy => ?_⟩
        by_contra hxy
        refine h x hx y hy (Ne.symm hxy) ?_
        rw [hnil]
        exact List.nil_prefix
      rw [hsingle, Finset.sum_singleton, hnil, Finset.sup_singleton, hnil]
      exact Nat.le_refl _

/-- Merging costs no more than a prefix code. -/
theorem Merges.le_of_prefixFree {w : α → ℕ} {c : ℕ} (hc : Merges (S.val.map w) c)
    (h : PrefixFree S code) : c ≤ ∑ x ∈ S, w x * (code x).length := by
  rcases h.fits with ⟨M, hfits⟩
  have hle := hc.le_cost (S.val.map (fun x => (w x, (code x).length)))
    (by rw [Multiset.map_map]; rfl) (by rw [Multiset.map_map]; exact hfits)
  unfold cost at hle
  rw [Multiset.map_map] at hle
  exact hle

end

end OptimalCode

end BlogSample
