import BlogSample.PolandNotation.Calculator

/-!
# Which Formulas the Calculator Gets Right

When an operator comes, the calculator applies at most one of the operators
before it. After `a - b * c` and before another `-` that is the product, and
the first `-` stays: what comes after it in the same parentheses is evaluated
first. So `a - b * c - d` is taken for `a - (b * c - d)`.

An addition that stays does no harm, because sums are the same modulo `2^32`
in any order, and no intermediate result of the tree overflows. Left over are
the subtractions of a product or quotient that is not in parentheses, with
another `+` or `-` after them: `calc_correct_iff` says that these and no
others can come out wrong.

## Main definitions

* `Oper.exact`, `Oper.checked`, `value`: Arithmetic that must not overflow.
* `Correct`: The calculator returns the value of the tree.
* `BareProduct`, `SubtractsProduct`: The pattern to look for.
* `PlainSubtractions`: It does not occur before `+` or `-`.

## Theorems

* `apply_of_checked`: Without an overflow wrapping changes nothing.
* `spine_product`: A product leaves one operator pending.
* `spine_plain`: What is pending without the pattern are additions.
* `exists_fill`: Every shape can be given the value 0 or 1.
* `exists_wrong`: With the pattern a shape can be given numerals for which
  the sign comes out wrong.
* `calc_correct_iff`: Which shapes are evaluated correctly.
-/

namespace BlogSample

namespace PolandNotation

open DotNet

namespace Calculator

/-- An operator on the integers. -/
def Oper.exact : Oper → Int → Int → Int
  | .add, a, b => a + b
  | .sub, a, b => a - b
  | .mul, a, b => a * b
  | .cross, a, b => a * b
  | .div, a, b => a.tdiv b

/-- An operator on values that must not overflow. -/
def Oper.checked (o : Oper) (a b : Int) : Except Exn Int :=
  if o = .div ∧ b = 0 then throw .divideByZero
  else if InRange (o.exact a b) then pure (o.exact a b) else throw .overflow

/-- The value of a tree, if no intermediate result overflows and nothing is
    divided by zero. -/
def value (e : Expr Nat Oper) : Except Exn Int :=
  e.eval literal Oper.checked

/-- The tree of a formula. -/
def tree (f : Formula Literal Oper) : Expr Nat Oper :=
  f.expr.map Literal.value

/-- On every text of the formula a fresh calculator returns the value of the
    tree, if it has one. -/
def Correct (f : Formula Literal Oper) : Prop :=
  ∀ formula v, Prints Oper.char f formula → value (tree f) = .ok v →
    (calcFormula formula new).1 = .ok v

section Shapes

variable {ν : Type}

/-- A product or quotient outside of parentheses. -/
def BareProduct : Formula ν Oper → Prop
  | .app o _ _ => o.priority = 2
  | _ => False

/-- A subtraction of one. -/
def SubtractsProduct : Formula ν Oper → Prop
  | .app .sub _ r => BareProduct r
  | _ => False

/-- No subtraction of a bare product or quotient is the left operand of `+`
    or `-`. -/
def PlainSubtractions : Formula ν Oper → Prop
  | .num _ => True
  | .paren f => PlainSubtractions f
  | .app o l r =>
      PlainSubtractions l ∧ PlainSubtractions r ∧ (o.priority = 1 → ¬ SubtractsProduct l)

theorem bareProduct_map {μ : Type} (g : ν → μ) (f : Formula ν Oper) :
    BareProduct (f.map g) ↔ BareProduct f := by
  cases f with
  | num n => exact Iff.rfl
  | paren f => exact Iff.rfl
  | app o l r => exact Iff.rfl

theorem subtractsProduct_map {μ : Type} (g : ν → μ) (f : Formula ν Oper) :
    SubtractsProduct (f.map g) ↔ SubtractsProduct f := by
  cases f with
  | num n => exact Iff.rfl
  | paren f => exact Iff.rfl
  | app o l r =>
      cases o with
      | sub => exact bareProduct_map g r
      | add => exact Iff.rfl
      | mul => exact Iff.rfl
      | cross => exact Iff.rfl
      | div => exact Iff.rfl

theorem plainSubtractions_map {μ : Type} (g : ν → μ) (f : Formula ν Oper) :
    PlainSubtractions (f.map g) ↔ PlainSubtractions f := by
  induction f with
  | num n => exact Iff.rfl
  | paren f ih => exact ih
  | app o l r ihl ihr =>
      unfold Formula.map PlainSubtractions
      rw [ihl, ihr, subtractsProduct_map]

end Shapes

/-- The pattern, the priorities and the parentheses are a matter of shape. -/
theorem of_shape {f g : Formula Literal Oper} (h : g.shape = f.shape) :
    (g.Respects Oper.priority ↔ f.Respects Oper.priority) ∧
    (∀ p, g.Binds Oper.priority p ↔ f.Binds Oper.priority p) ∧
    (PlainSubtractions g ↔ PlainSubtractions f) ∧ (SubtractsProduct g ↔ SubtractsProduct f) ∧
    (BareProduct g ↔ BareProduct f) := by
  unfold Formula.shape at h
  refine ⟨?_, fun p => ?_, ?_, ?_, ?_⟩
  · rw [← Formula.respects_map (fun _ => ()) _ g, h, Formula.respects_map]
  · rw [← Formula.binds_map (fun _ => ()) _ p g, h, Formula.binds_map]
  · rw [← plainSubtractions_map (fun _ => ()) g, h, plainSubtractions_map]
  · rw [← subtractsProduct_map (fun _ => ()) g, h, subtractsProduct_map]
  · rw [← bareProduct_map (fun _ => ()) g, h, bareProduct_map]

theorem value_app (o : Oper) (l r : Formula Literal Oper) :
    value (tree (.app o l r)) = (do
      let a ← value (tree l)
      let b ← value (tree r)
      o.checked a b) := rfl

/-! ### Checked arithmetic -/

theorem checked_eq_ok {o : Oper} {a b z : Int} :
    o.checked a b = .ok z ↔ ¬ (o = .div ∧ b = 0) ∧ InRange z ∧ o.exact a b = z := by
  unfold Oper.checked
  by_cases hzero : o = .div ∧ b = 0
  · rw [if_pos hzero]
    exact iff_of_false (fun h => by cases h) (fun h => h.1 hzero)
  · rw [if_neg hzero]
    by_cases hr : InRange (o.exact a b)
    · rw [if_pos hr]
      constructor
      · intro h
        have hz : o.exact a b = z := Except.ok.inj h
        exact ⟨hzero, hz ▸ hr, hz⟩
      · intro h
        rw [h.2.2]
        rfl
    · rw [if_neg hr]
      exact iff_of_false (fun h => by cases h) (fun h => hr (h.2.2 ▸ h.2.1))

/-- Without an overflow wrapping changes nothing. -/
theorem apply_of_checked {o : Oper} {a b z : Int} (h : o.checked a b = .ok z) :
    o.apply a b = .ok z := by
  rcases checked_eq_ok.mp h with ⟨hzero, hz, hval⟩
  have hwrap : wrap (o.exact a b) = z := by
    rw [hval, wrap_of_inRange hz]
  cases o with
  | add => exact congrArg Except.ok hwrap
  | sub => exact congrArg Except.ok hwrap
  | mul => exact congrArg Except.ok hwrap
  | cross => exact congrArg Except.ok hwrap
  | div =>
      have hb : b ≠ 0 := fun hb => hzero ⟨rfl, hb⟩
      have hover : ¬ (a = -2147483648 ∧ b = -1) := by
        intro hab
        rw [hab.1, hab.2] at hval
        rw [← hval] at hz
        exact absurd hz (by decide)
      change intDiv a b = _
      unfold intDiv
      rw [if_neg hb, if_neg hover, ← hval]
      rfl

/-! ### Spines of products -/

theorem priority_le (o : Oper) : 1 ≤ o.priority ∧ o.priority ≤ 2 := by
  cases o <;> decide

/-- An operand that can only be a numeral or in parentheses leaves nothing
    pending. -/
theorem spine_atom {f : Formula Literal Oper} (hb : f.Binds Oper.priority 3)
    {s : List (Int × Oper)} {v : Int} (h : spine f = .ok (s, v)) : s = [] := by
  cases f with
  | num n =>
      rcases bind_eq_ok h with ⟨w, -, hpair⟩
      exact (Prod.mk.inj (Except.ok.inj hpair)).1.symm
  | paren f =>
      rcases bind_eq_ok h with ⟨t, -, h⟩
      rcases bind_eq_ok h with ⟨w, -, hpair⟩
      exact (Prod.mk.inj (Except.ok.inj hpair)).1.symm
  | app o l r =>
      have h₁ : 3 ≤ o.priority := hb
      have h₂ := priority_le o
      omega

/-- What is left of a spine after its last operator is applied. -/
theorem reduceTop_tail {s t : List (Int × Oper)} {v w : Int} (h : reduceTop s v = .ok (t, w)) :
    t = s.tail := by
  cases s with
  | nil => exact (Prod.mk.inj (Except.ok.inj h)).1.symm
  | cons x s =>
      rcases bind_eq_ok h with ⟨u, -, hpair⟩
      exact (Prod.mk.inj (Except.ok.inj hpair)).1.symm

/-- A product leaves at most one operator pending, and exactly one if it is
    not in parentheses. -/
theorem spine_product {f : Formula Literal Oper} (hf : f.Respects Oper.priority)
    (hb : f.Binds Oper.priority 2) : ∀ {s : List (Int × Oper)} {v : Int},
    spine f = .ok (s, v) → s.length ≤ 1 ∧ (s = [] ↔ ¬ BareProduct f) := by
  induction f with
  | num n =>
      intro s v h
      have hs := spine_atom (f := .num n) trivial h
      rw [hs]
      exact ⟨Nat.zero_le 1, iff_of_true rfl id⟩
  | paren f _ =>
      intro s v h
      have hs := spine_atom (f := .paren f) trivial h
      rw [hs]
      exact ⟨Nat.zero_le 1, iff_of_true rfl id⟩
  | app o l r ihl _ =>
      intro s v h
      rcases hf with ⟨hl, hr, hbl, hbr⟩
      have ho : o.priority = 2 := Nat.le_antisymm (priority_le o).2 hb
      rcases bind_eq_ok h with ⟨sl, hsl, h⟩
      rcases bind_eq_ok h with ⟨t, ht, h⟩
      rcases bind_eq_ok h with ⟨sr, hsr, hpair⟩
      have hpair := Prod.mk.inj (Except.ok.inj hpair)
      -- The right operand binds more than a product, so nothing is pending in it.
      have hsr' : sr.1 = [] := spine_atom (by rw [ho] at hbr; exact hbr) hsr
      -- What was pending on the left is applied when the operator comes.
      have ht' : t.1 = [] := by
        have hlen := (ihl hl (ho ▸ hbl) hsl).1
        rw [reduceTop_tail ht]
        exact List.length_eq_zero_iff.mp (by rw [List.length_tail]; omega)
      rw [← hpair.1, hsr', ht']
      exact ⟨Nat.le_refl 1, iff_of_false (List.cons_ne_nil _ _) (fun hn => hn ho)⟩

/-- Applying its one operator gives the value of a product. -/
theorem reduceTop_product {f : Formula Literal Oper} (hf : f.Respects Oper.priority)
    (hb : f.Binds Oper.priority 2) {s : List (Int × Oper)} {v w : Int}
    (h : spine f = .ok (s, v)) (hw : collapse s v = .ok w) : reduceTop s v = .ok ([], w) := by
  rcases collapse_reduceTop hw with ⟨t, u, ht, hu⟩
  have hlen := (spine_product hf hb h).1
  have htail : t = [] := by
    rw [reduceTop_tail ht]
    exact List.length_eq_zero_iff.mp (by rw [List.length_tail]; omega)
  rw [htail] at ht hu
  rw [ht, ← Except.ok.inj hu]

/-! ### Additions that stay pending -/

theorem wrap_emod (z : Int) : wrap z % 4294967296 = z % 4294967296 := by
  unfold wrap
  omega

/-- What additions make of a value follows it, up to a multiple of the range
    of an `int`. -/
theorem collapse_additions {s : List (Int × Oper)} : (∀ x ∈ s, x.2 = .add) →
    ∀ {v w : Int}, collapse s v = .ok w → ∀ v', ∃ w', collapse s v' = .ok w' ∧
      (w' - w) % 4294967296 = (v' - v) % 4294967296 := by
  induction s with
  | nil =>
      intro _ v w h v'
      refine ⟨v', rfl, ?_⟩
      rw [← Except.ok.inj h]
  | cons x s ih =>
      intro hs v w h v'
      have hadd : x.2 = .add := hs x List.mem_cons_self
      unfold collapse at h ⊢
      rw [hadd] at h ⊢
      rcases ih (fun y hy => hs y (List.mem_cons_of_mem x hy)) h (wrap (x.1 + v')) with
        ⟨w', hw', hmod⟩
      refine ⟨w', hw', ?_⟩
      have h₁ := wrap_emod (x.1 + v)
      have h₂ := wrap_emod (x.1 + v')
      omega

/-- A sum or difference of what is on top is one of the whole, if only
    additions are pending and the whole does not overflow. -/
theorem collapse_additive {o : Oper} (ho : o.priority = 1) {s : List (Int × Oper)}
    (hs : ∀ x ∈ s, x.2 = .add) (hr : ∀ x ∈ s, InRange x.1) {e a b : Int}
    (h : collapse s e = .ok a) (hin : InRange (o.exact a b)) :
    ∃ w, o.apply e b = .ok w ∧ collapse s w = .ok (o.exact a b) := by
  have hwrap : o.apply e b = .ok (wrap (o.exact e b)) := by
    cases o with
    | add => rfl
    | sub => rfl
    | mul => cases ho
    | cross => cases ho
    | div => cases ho
  -- The operator shifts its left operand, whatever that is.
  have hdiff : o.exact e b - e = o.exact a b - a := by
    cases o with
    | add =>
        change e + b - e = a + b - a
        omega
    | sub =>
        change e - b - e = a - b - a
        omega
    | mul => cases ho
    | cross => cases ho
    | div => cases ho
  refine ⟨wrap (o.exact e b), hwrap, ?_⟩
  rcases collapse_additions hs h (wrap (o.exact e b)) with ⟨w, hw, hmod⟩
  have hwin : InRange w := collapse_inRange hr (wrap_inRange _) hw
  have hemod := wrap_emod (o.exact e b)
  -- Both are in range and differ by a multiple of the modulus.
  have heq : w = o.exact a b := by
    unfold InRange at hwin hin
    omega
  rw [heq] at hw
  exact hw

/-- The spine of two operands, by what is applied to what. -/
theorem collapse_app {o : Oper} {l r : Formula Literal Oper} {sl t sr : List (Int × Oper)}
    {ul e ur b w v : Int} (hl : spine l = .ok (sl, ul)) (ht : reduceTop sl ul = .ok (t, e))
    (hr : spine r = .ok (sr, ur)) (hb : collapse sr ur = .ok b) (hw : o.apply e b = .ok w)
    (hv : collapse t w = .ok v) :
    spine (.app o l r) = .ok (sr ++ (e, o) :: t, ur) ∧
      collapse (sr ++ (e, o) :: t) ur = .ok v := by
  constructor
  · unfold spine
    rw [hl]
    change (do
      let t ← reduceTop sl ul
      let u ← spine r
      pure (u.1 ++ (t.2, o) :: t.1, u.2)) = _
    rw [ht, hr]
    rfl
  · rw [collapse_append, hb]
    change (do
      let w ← o.apply e b
      collapse t w) = _
    rw [hw]
    exact hv

/-- A formula evaluates to a value on the two stacks. -/
def Collapses (f : Formula Literal Oper) (v : Int) : Prop :=
  ∃ s u, spine f = .ok (s, u) ∧ collapse s u = .ok v

theorem Collapses.inRange {f : Formula Literal Oper} {v : Int} (h : Collapses f v) : InRange v := by
  rcases h with ⟨s, u, hs, hv⟩
  exact collapse_inRange (spine_inRange hs).1 (spine_inRange hs).2 hv

theorem Collapses.paren {f : Formula Literal Oper} {v : Int} (h : Collapses f v) :
    Collapses (.paren f) v := by
  rcases h with ⟨s, u, hs, hv⟩
  refine ⟨[], v, ?_, rfl⟩
  unfold spine
  rw [hs]
  change (do
    let v ← collapse s u
    pure ([], v)) = _
  rw [hv]
  rfl

/-- A product or quotient is evaluated on what its left operand comes to. -/
theorem Collapses.multiplicative {o : Oper} {l r : Formula Literal Oper} {a b v : Int}
    (hl : l.Respects Oper.priority) (hbl : l.Binds Oper.priority 2) (ha : Collapses l a)
    (hb : Collapses r b) (hv : o.apply a b = .ok v) :
    Collapses (.app o l r) v := by
  rcases ha with ⟨sl, ul, hsl, ha⟩
  rcases hb with ⟨sr, ur, hsr, hb⟩
  have happ := collapse_app hsl (reduceTop_product hl hbl hsl ha) hsr hb hv rfl
  exact ⟨_, _, happ.1, happ.2⟩

/-- Below the operator that is applied next a formula leaves only additions
    pending. -/
def AdditionsPending (f : Formula Literal Oper) : Prop :=
  ∀ s u, spine f = .ok (s, u) → ∀ x ∈ s.tail, x.2 = .add

/-- Where only additions are pending a sum or difference is evaluated on what
    its left operand comes to. -/
theorem Collapses.additive {o : Oper} {l r : Formula Literal Oper} {a b : Int}
    (ho : o.priority = 1) (hadd : AdditionsPending l) (ha : Collapses l a) (hb : Collapses r b)
    (hin : InRange (o.exact a b)) : Collapses (.app o l r) (o.exact a b) := by
  rcases ha with ⟨sl, ul, hsl, ha⟩
  rcases hb with ⟨sr, ur, hsr, hb⟩
  rcases collapse_reduceTop ha with ⟨t, e, ht, he⟩
  have htail := reduceTop_tail ht
  have hpend : ∀ x ∈ t, x.2 = .add := by
    rw [htail]
    exact hadd sl ul hsl
  have hrange : ∀ x ∈ t, InRange x.1 := by
    rw [htail]
    exact fun x hx => (spine_inRange hsl).1 x (List.mem_of_mem_tail hx)
  rcases collapse_additive ho hpend hrange he hin with ⟨w, hw, hv⟩
  have happ := collapse_app hsl ht hsr hb hw hv
  exact ⟨_, _, happ.1, happ.2⟩

/-- Where an operand leaves only additions pending, so does a sum of it and a
    difference of it and something that is no bare product. -/
theorem AdditionsPending.app {o : Oper} {l r : Formula Literal Oper}
    (hf : (Formula.app o l r).Respects Oper.priority) (ho : o.priority = 1)
    (hl : AdditionsPending l) (hsub : ¬ SubtractsProduct (.app o l r)) :
    AdditionsPending (.app o l r) := by
  intro s u h x hx
  rcases hf with ⟨-, hr, -, hbr⟩
  rw [ho] at hbr
  rcases bind_eq_ok h with ⟨sl, hsl, h⟩
  rcases bind_eq_ok h with ⟨t, ht, h⟩
  rcases bind_eq_ok h with ⟨sr, hsr, hpair⟩
  have hpair := Prod.mk.inj (Except.ok.inj hpair)
  rcases spine_product hr hbr hsr with ⟨hlen, hnil⟩
  have hpend : ∀ y ∈ t.1, y.2 = .add := by
    rw [reduceTop_tail ht]
    exact hl sl.1 sl.2 hsl
  rw [← hpair.1] at hx
  cases hsr' : sr.1 with
  | nil =>
      rw [hsr'] at hx
      exact hpend x hx
  | cons y rest =>
      -- The right operand is a bare product, and the operator is no subtraction.
      have hbare : BareProduct r := by
        by_contra hno
        rw [hnil.mpr hno] at hsr'
        cases hsr'
      have hrest : rest = [] := by
        rw [hsr', List.length_cons] at hlen
        exact List.length_eq_zero_iff.mp (by omega)
      have hadd : o = .add := by
        cases o with
        | add => rfl
        | sub => exact absurd hbare hsub
        | mul => cases ho
        | cross => cases ho
        | div => cases ho
      rw [hsr', hrest] at hx
      rcases List.mem_cons.mp hx with hx | hx
      · rw [hx]
        exact hadd
      · exact hpend x hx

/-- Without the pattern a formula evaluates to its value. What it leaves
    pending are additions, unless it subtracts a bare product itself. -/
theorem spine_plain {f : Formula Literal Oper} : ∀ {v : Int}, f.Respects Oper.priority →
    PlainSubtractions f → value (tree f) = .ok v →
    Collapses f v ∧ (¬ SubtractsProduct f → AdditionsPending f) := by
  induction f with
  | num n =>
      intro v _ _ h
      have hspine : spine (.num n) = .ok ([], v) := by
        change (do
          let v ← literal n.value
          pure ([], v)) = _
        rw [show literal n.value = .ok v from h]
        rfl
      refine ⟨⟨[], v, hspine, rfl⟩, fun _ s u hs x hx => ?_⟩
      rw [spine_atom (f := .num n) trivial hs] at hx
      exact absurd hx List.not_mem_nil
  | paren f ih =>
      intro v hf hplain h
      refine ⟨(ih hf hplain h).1.paren, fun _ s u hs x hx => ?_⟩
      rw [spine_atom (f := .paren f) trivial hs] at hx
      exact absurd hx List.not_mem_nil
  | app o l r ihl ihr =>
      intro v hf hplain h
      rcases hf with ⟨hl, hr, hbl, hbr⟩
      rcases hplain with ⟨hpl, hpr, hno⟩
      rw [value_app] at h
      rcases bind_eq_ok h with ⟨a, ha, h⟩
      rcases bind_eq_ok h with ⟨b, hb, h⟩
      have hcl := ihl hl hpl ha
      have hcr := ihr hr hpr hb
      rcases Nat.lt_or_eq_of_le (priority_le o).2 with ho | ho
      · have ho : o.priority = 1 := Nat.le_antisymm (Nat.le_of_lt_succ ho) (priority_le o).1
        have hpend := hcl.2 (hno ho)
        rcases checked_eq_ok.mp h with ⟨-, hin, hval⟩
        refine ⟨?_, fun hsub => AdditionsPending.app ⟨hl, hr, hbl, hbr⟩ ho hpend hsub⟩
        rw [← hval] at hin ⊢
        exact Collapses.additive ho hpend hcl.1 hcr.1 hin
      · refine ⟨Collapses.multiplicative hl (ho ▸ hbl) hcl.1 hcr.1 (apply_of_checked h),
          fun _ s u hs x hx => ?_⟩
        -- A product leaves one operator pending, and nothing below it.
        have hlen := (spine_product (f := .app o l r) ⟨hl, hr, hbl, hbr⟩ (Nat.le_of_eq ho.symm)
          hs).1
        have hnil : s.tail = [] := List.length_eq_zero_iff.mp (by rw [List.length_tail]; omega)
        rw [hnil] at hx
        exact absurd hx List.not_mem_nil

/-! ### Numerals for a shape -/

/-- The numeral `0`. -/
def zeroLit : Literal := ⟨['0'], List.cons_ne_nil _ _, List.all_eq_true.mp rfl⟩

/-- The numeral `1`. -/
def oneLit : Literal := ⟨['1'], List.cons_ne_nil _ _, List.all_eq_true.mp rfl⟩

/-- The right operand that changes nothing. -/
def Oper.neutral (o : Oper) : Int :=
  if o.priority = 1 then 0 else 1

theorem exact_neutral (o : Oper) (a : Int) : o.exact a o.neutral = a := by
  cases o with
  | add => exact Int.add_zero a
  | sub => exact Int.sub_zero a
  | mul => exact Int.mul_one a
  | cross => exact Int.mul_one a
  | div => exact Int.tdiv_one a

theorem checked_neutral (o : Oper) {a : Int} (ha : InRange a) : o.checked a o.neutral = .ok a := by
  refine checked_eq_ok.mpr ⟨fun h => ?_, ha, exact_neutral o a⟩
  rw [h.1] at h
  exact absurd h.2 (by decide)

theorem neutral_eq (o : Oper) : o.neutral = 0 ∨ o.neutral = 1 := by
  unfold Oper.neutral
  by_cases h : o.priority = 1
  · rw [if_pos h]
    exact Or.inl rfl
  · rw [if_neg h]
    exact Or.inr rfl

/-- A neutral right operand changes neither the value nor what the stacks
    come to. -/
theorem Collapses.neutral {o : Oper} {l r : Formula Literal Oper} {a : Int} (ha : Collapses l a)
    (hb : Collapses r o.neutral) : Collapses (.app o l r) a := by
  rcases ha with ⟨sl, ul, hsl, ha⟩
  rcases hb with ⟨sr, ur, hsr, hb⟩
  rcases collapse_reduceTop ha with ⟨t, e, ht, he⟩
  have hein : InRange e := (reduceTop_inRange (spine_inRange hsl) ht).2
  have happ := collapse_app hsl ht hsr hb (apply_of_checked (checked_neutral o hein)) he
  exact ⟨_, _, happ.1, happ.2⟩

theorem value_app_ok {o : Oper} {l r : Formula Literal Oper} {a b v : Int}
    (ha : value (tree l) = .ok a) (hb : value (tree r) = .ok b) (hv : o.checked a b = .ok v) :
    value (tree (.app o l r)) = .ok v := by
  rw [value_app, ha, hb]
  exact hv

/-- Every shape can be given the value 0, and the value 1. -/
theorem exists_fill (f : Formula Literal Oper) : ∀ b : Int, b = 0 ∨ b = 1 →
    ∃ g, g.shape = f.shape ∧ value (tree g) = .ok b ∧ Collapses g b := by
  induction f with
  | num n =>
      intro b hb
      rcases hb with hb | hb
      · rw [hb]
        exact ⟨.num zeroLit, rfl, by decide, [], 0, rfl, rfl⟩
      · rw [hb]
        exact ⟨.num oneLit, rfl, by decide, [], 1, rfl, rfl⟩
  | paren f ih =>
      intro b hb
      rcases ih b hb with ⟨g, hg, hval, hcol⟩
      exact ⟨.paren g, congrArg Formula.paren hg, hval, hcol.paren⟩
  | app o l r ihl ihr =>
      intro b hb
      rcases ihl b hb with ⟨gl, hgl, hval, hcol⟩
      rcases ihr o.neutral (neutral_eq o) with ⟨gr, hgr, hvalr, hcolr⟩
      exact ⟨.app o gl gr, congrArg₂ (Formula.app o) hgl hgr,
        value_app_ok hval hvalr (checked_neutral o hcol.inRange), hcol.neutral hcolr⟩

/-- A sign that comes out wrong. -/
def Flips (f : Formula Literal Oper) : Prop :=
  ∃ v : Int, (v = 1 ∨ v = -1) ∧ value (tree f) = .ok v ∧ Collapses f (-v)

theorem inRange_sign {v : Int} (hv : v = 1 ∨ v = -1) : InRange v := by
  unfold InRange
  omega

/-- In `0 - p + 1` and `0 - p - 1`, with a bare product `p` that is 0, the
    last operator is applied first. -/
theorem flips_pattern {o : Oper} (ho : o.priority = 1) {l p r : Formula Literal Oper}
    (hp : p.Respects Oper.priority) (hbp : p.Binds Oper.priority 2) (hbare : BareProduct p)
    (hpend : AdditionsPending l) (hl : value (tree l) = .ok 0) (hcl : Collapses l 0)
    (hvp : value (tree p) = .ok 0) (hcp : Collapses p 0) (hvr : value (tree r) = .ok 1)
    (hcr : Collapses r 1) : Flips (.app o (.app .sub l p) r) := by
  have hsign : o.exact 0 1 = 1 ∨ o.exact 0 1 = -1 := by
    cases o with
    | add => exact Or.inl rfl
    | sub => exact Or.inr rfl
    | mul => cases ho
    | cross => cases ho
    | div => cases ho
  have hchecked : o.checked 0 1 = .ok (o.exact 0 1) :=
    checked_eq_ok.mpr ⟨fun h => absurd h.2 (by decide), inRange_sign hsign, rfl⟩
  refine ⟨o.exact 0 1, hsign, value_app_ok (value_app_ok hl hvp rfl) hvr hchecked, ?_⟩
  rcases hcl with ⟨sl, ul, hsl, hcl⟩
  rcases hcp with ⟨sp, up, hsp, hcp⟩
  rcases hcr with ⟨sr, ur, hsr, hcr⟩
  rcases collapse_reduceTop hcl with ⟨t, e, ht, he⟩
  have htail := reduceTop_tail ht
  have hadd : ∀ x ∈ t, x.2 = .add := by
    rw [htail]
    exact hpend sl ul hsl
  have hrange : ∀ x ∈ t, InRange x.1 := by
    rw [htail]
    exact fun x hx => (spine_inRange hsl).1 x (List.mem_of_mem_tail hx)
  -- The subtraction takes off what comes after the product.
  have hneg : InRange (Oper.exact .sub 0 (o.exact 0 1)) := by
    change InRange (0 - o.exact 0 1)
    exact inRange_sign (by omega)
  rcases collapse_additive (o := .sub) rfl hadd hrange he hneg with ⟨w, hw, hcw⟩
  have hinner := collapse_app (o := .sub) hsl ht hsp hcp
    (apply_of_checked (checked_neutral .sub (reduceTop_inRange (spine_inRange hsl) ht).2)) he
  -- The product stays on top, and is the only operator applied.
  have htop : reduceTop (sp ++ (e, .sub) :: t) up = .ok ((e, .sub) :: t, 0) := by
    have hprod := reduceTop_product hp hbp hsp hcp
    cases sp with
    | nil => exact absurd hbare ((spine_product hp hbp hsp).2.mp rfl)
    | cons y rest =>
        have hrest : rest = [] := (reduceTop_tail hprod).symm
        rcases bind_eq_ok hprod with ⟨u, hu, hpair⟩
        rw [hrest, List.cons_append, List.nil_append, reduceTop, hu,
          (Prod.mk.inj (Except.ok.inj hpair)).2]
        rfl
  have hcollapse : collapse ((e, .sub) :: t) (o.exact 0 1) = .ok (-(o.exact 0 1)) := by
    unfold collapse
    change (do
      let w ← Oper.apply .sub e (o.exact 0 1)
      collapse t w) = _
    rw [hw]
    change collapse t w = _
    rw [hcw]
    exact congrArg Except.ok (Int.zero_sub _)
  have houter := collapse_app hinner.1 htop hsr hcr (apply_of_checked hchecked) hcollapse
  exact ⟨_, _, houter.1, houter.2⟩

/-- The pattern at an operator can be given numerals for which the sign comes
    out wrong. -/
theorem exists_flips_pattern {o : Oper} (ho : o.priority = 1) {l r : Formula Literal Oper}
    (hl : l.Respects Oper.priority) (hpl : PlainSubtractions l) (hsub : SubtractsProduct l) :
    ∃ g, g.shape = (Formula.app o l r).shape ∧ Flips g := by
  cases l with
  | num n => exact absurd hsub id
  | paren l => exact absurd hsub id
  | app o' l p =>
      cases o' with
      | add => exact absurd hsub id
      | mul => exact absurd hsub id
      | cross => exact absurd hsub id
      | div => exact absurd hsub id
      | sub =>
          -- The formula `0 - 0 ± 1`, which the calculator groups from the right.
          rcases exists_fill l 0 (Or.inl rfl) with ⟨gl, hgl, hvl, hcl⟩
          rcases exists_fill p 0 (Or.inl rfl) with ⟨gp, hgp, hvp, hcp⟩
          rcases exists_fill r 1 (Or.inr rfl) with ⟨gr, hgr, hvr, hcr⟩
          have hgl' := of_shape hgl
          have hgp' := of_shape hgp
          have hpend : AdditionsPending gl :=
            (spine_plain (hgl'.1.mpr hl.1) (hgl'.2.2.1.mpr hpl.1) hvl).2
              (fun hs => hpl.2.2 rfl (hgl'.2.2.2.1.mp hs))
          have hinner : (Formula.app .sub gl gp).shape = (Formula.app .sub l p).shape :=
            congrArg₂ (Formula.app Oper.sub) hgl hgp
          exact ⟨.app o (.app .sub gl gp) gr, congrArg₂ (Formula.app o) hinner hgr,
            flips_pattern ho (hgp'.1.mpr hl.2.1) ((hgp'.2.1 2).mpr hl.2.2.2)
              (hgp'.2.2.2.2.mpr hsub) hpend hvl hcl hvp hcp hvr hcr⟩

/-- A sign stays one, and a wrong one stays wrong, next to a neutral operand. -/
theorem exact_neutral_sign (o : Oper) {v : Int} (hv : v = 1 ∨ v = -1) :
    (o.exact o.neutral v = 1 ∨ o.exact o.neutral v = -1) ∧
      o.exact o.neutral (-v) = -(o.exact o.neutral v) := by
  rcases hv with rfl | rfl
  · cases o <;> decide
  · cases o <;> decide

/-- A sign that comes out wrong on the right does so next to a neutral numeral
    on the left. -/
theorem exists_flips_right {o : Oper} {l r gr : Formula Literal Oper}
    (hl : l.Respects Oper.priority) (hbl : l.Binds Oper.priority o.priority)
    (hpl : PlainSubtractions l) (hsub : ¬ (o.priority = 1 ∧ SubtractsProduct l))
    (hgr : gr.shape = r.shape) (hflips : Flips gr) :
    ∃ g, g.shape = (Formula.app o l r).shape ∧ Flips g := by
  rcases hflips with ⟨v, hv, hval, hcol⟩
  -- The left operand is made neutral, so the sign of the right one decides.
  rcases exists_fill l o.neutral (neutral_eq o) with ⟨gl, hgl, hvl, hcl⟩
  have hgl' := of_shape hgl
  have hshape : (Formula.app o gl gr).shape = (Formula.app o l r).shape :=
    congrArg₂ (Formula.app o) hgl hgr
  rcases exact_neutral_sign o hv with ⟨hsign, hneg⟩
  have hne : ∀ u : Int, u = v ∨ u = -v → ¬ (o = .div ∧ u = 0) := by
    intro u hu hdiv
    omega
  have hchecked : o.checked o.neutral v = .ok (o.exact o.neutral v) :=
    checked_eq_ok.mpr ⟨hne v (Or.inl rfl), inRange_sign hsign, rfl⟩
  have hnegin : InRange (o.exact o.neutral (-v)) := by
    rw [hneg]
    exact inRange_sign (by omega)
  refine ⟨.app o gl gr, hshape, _, hsign, value_app_ok hvl hval hchecked, ?_⟩
  rw [← hneg]
  rcases Nat.lt_or_eq_of_le (priority_le o).2 with ho | ho
  -- An addition or a subtraction, whose left operand leaves additions only.
  · have ho : o.priority = 1 := Nat.le_antisymm (Nat.le_of_lt_succ ho) (priority_le o).1
    have hpend : AdditionsPending gl :=
      (spine_plain (hgl'.1.mpr hl) (hgl'.2.2.1.mpr hpl) hvl).2
        (fun hs => hsub ⟨ho, hgl'.2.2.2.1.mp hs⟩)
    exact Collapses.additive ho hpend hcl hcol hnegin
  -- A product or a quotient: the left operand leaves nothing pending.
  · refine Collapses.multiplicative (hgl'.1.mpr hl) ((hgl'.2.1 2).mpr (ho ▸ hbl)) hcl hcol ?_
    exact apply_of_checked (checked_eq_ok.mpr ⟨hne (-v) (Or.inr rfl), hnegin, rfl⟩)

/-- With the pattern a shape can be given numerals for which the sign comes
    out wrong. -/
theorem exists_wrong {f : Formula Literal Oper} : f.Respects Oper.priority →
    ¬ PlainSubtractions f → ∃ g, g.shape = f.shape ∧ Flips g := by
  induction f with
  | num n => exact fun _ h => absurd trivial h
  | paren f ih =>
      intro hf h
      rcases ih hf h with ⟨g, hg, v, hv, hval, hcol⟩
      exact ⟨.paren g, congrArg Formula.paren hg, v, hv, hval, hcol.paren⟩
  | app o l r ihl ihr =>
      intro hf h
      rcases hf with ⟨hl, hr, hbl, hbr⟩
      by_cases hpl : PlainSubtractions l
      · by_cases hsub : o.priority = 1 ∧ SubtractsProduct l
        -- The pattern is the operator itself and the one before it.
        · exact exists_flips_pattern hsub.1 hl hpl hsub.2
        -- The pattern is in the right operand.
        · have hpr : ¬ PlainSubtractions r :=
            fun hpr => h ⟨hpl, hpr, fun ho hs => hsub ⟨ho, hs⟩⟩
          rcases ihr hr hpr with ⟨gr, hgr, hflips⟩
          exact exists_flips_right hl hbl hpl hsub hgr hflips
      -- The pattern is in the left operand.
      · rcases ihl hl hpl with ⟨gl, hgl, v, hv, hval, hcol⟩
        rcases exists_fill r o.neutral (neutral_eq o) with ⟨gr, hgr, hvr, hcr⟩
        exact ⟨.app o gl gr, congrArg₂ (Formula.app o) hgl hgr, v, hv,
          value_app_ok hval hvr (checked_neutral o (inRange_sign hv)), hcol.neutral hcr⟩

/-- The calculator is right about every formula of a shape, whatever its
    literals, if and only if no subtraction of a bare product or quotient is
    the left operand of `+` or `-`. -/
theorem calc_correct_iff {f : Formula Literal Oper} (hf : f.Respects Oper.priority) :
    (∀ g, g.shape = f.shape → Correct g) ↔ PlainSubtractions f := by
  constructor
  · intro h
    by_contra hplain
    rcases exists_wrong hf hplain with ⟨g, hg, v, hv, hval, s, u, hs, hcol⟩
    have hright := h g hg _ v (spaced_flatten _) hval
    rw [calc_spine ((of_shape hg).1.mpr hf) hs hcol (spaced_flatten _)] at hright
    have := Except.ok.inj hright
    omega
  · intro hplain g hg formula v hprints hval
    have hg' := of_shape hg
    rcases spine_plain (hg'.1.mpr hf) (hg'.2.2.1.mpr hplain) hval with ⟨⟨s, u, hs, hcol⟩, -⟩
    exact congrArg Prod.fst (calc_spine (hg'.1.mpr hf) hs hcol hprints)

/-- `1 * (2 - 3) - 4 / 5`. -/
def plainSample : Formula Literal Oper :=
  .app .sub
    (.app .mul (.num oneLit) (.paren (.app .sub
      (.num ⟨['2'], List.cons_ne_nil _ _, List.all_eq_true.mp rfl⟩)
      (.num ⟨['3'], List.cons_ne_nil _ _, List.all_eq_true.mp rfl⟩))))
    (.app .div (.num ⟨['4'], List.cons_ne_nil _ _, List.all_eq_true.mp rfl⟩)
      (.num ⟨['5'], List.cons_ne_nil _ _, List.all_eq_true.mp rfl⟩))

/-- The shape of `1 * (2 - 3) - 4 / 5` is evaluated correctly. -/
theorem calc_correct_plainSample : plainSample.Respects Oper.priority ∧
    ∀ g, g.shape = plainSample.shape → Correct g := by
  have hf : plainSample.Respects Oper.priority := by
    refine ⟨⟨trivial, ⟨trivial, trivial, trivial, trivial⟩, trivial, trivial⟩,
      ⟨trivial, trivial, trivial, trivial⟩, ?_, ?_⟩
    · exact (by decide : 1 ≤ 2)
    · exact (by decide : 2 ≤ 2)
  refine ⟨hf, (calc_correct_iff hf).mpr ?_⟩
  exact ⟨⟨trivial, ⟨trivial, trivial, fun _ h => h⟩, fun _ h => h⟩,
    ⟨trivial, trivial, fun _ h => h⟩, fun _ h => h⟩

/-- `1 - 2 * 3 - 4`. -/
def groupedSample : Formula Literal Oper :=
  .app .sub
    (.app .sub (.num oneLit) (.app .mul
      (.num ⟨['2'], List.cons_ne_nil _ _, List.all_eq_true.mp rfl⟩)
      (.num ⟨['3'], List.cons_ne_nil _ _, List.all_eq_true.mp rfl⟩)))
    (.num ⟨['4'], List.cons_ne_nil _ _, List.all_eq_true.mp rfl⟩)

/-- `1 - 2 * 3 - 4` is `-9`, and the calculator returns `-1`. -/
theorem calc_groups_right : groupedSample.Respects Oper.priority ∧
    Prints Oper.char groupedSample "1-2*3-4".toList ∧ value (tree groupedSample) = .ok (-9) ∧
    (calcFormula "1-2*3-4".toList new).1 = .ok (-1) ∧ ¬ Correct groupedSample := by
  have hprints : Prints Oper.char groupedSample "1-2*3-4".toList := spaced_flatten _
  have hvalue : value (tree groupedSample) = .ok (-9) := by decide
  have hf : groupedSample.Respects Oper.priority := by
    refine ⟨⟨trivial, ⟨trivial, trivial, trivial, trivial⟩, trivial, ?_⟩, trivial, ?_, trivial⟩
    · exact (by decide : 2 ≤ 2)
    · exact (by decide : 1 ≤ 1)
  have hspine : spine groupedSample = .ok ([(6, .sub), (1, .sub)], 4) := by decide +kernel
  have hcalc : (calcFormula "1-2*3-4".toList new).1 = .ok (-1) :=
    congrArg Prod.fst (calc_spine hf hspine (by decide) hprints)
  refine ⟨hf, hprints, hvalue, hcalc, fun h => ?_⟩
  have hright := h _ _ hprints hvalue
  rw [hcalc] at hright
  exact absurd hright (by decide)

end Calculator

end PolandNotation

end BlogSample
