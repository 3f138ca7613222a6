import BlogSample.DynamicORMSample.Fidelity
import BlogSample.Theory.SqlLiterals

/-!
# String Constants in a Clause

A predicate with string constants in some places, filled in with any strings. A
constant goes into the clause as it is, without quotes around it and with the
quotes in it as they are. For SQL to read it as a literal the clause would need
more quotes than the constants have, wherever these quotes may stand, so no
choice of constants makes the clause what it is meant to be.

## Main definitions

* `Shape`: A predicate with places for string constants.
* `Shape.fill`: The predicate with constants in these places.
* `Parameterized`: The constants are nothing but the literals of the clause.

## Theorems

* `count_whereText_fill`: The quotes of a text are those of its constants.
* `parameterized_iff`: When constants cannot change the query.
-/

namespace BlogSample

namespace DynamicORMSample

open DotNet Sql

/-- Comparisons of members with constants, combined with `&&` and `||`. A
    constant is a string, by its place, or an integer. -/
inductive Shape (ι : Type) where
  | comparison (type : ExpressionType) (htype : type ≠ .andAlso ∧ type ≠ .orElse) (m : Name)
      (constant : ι ⊕ { z : Int // InRange z })
  | andAlso (left right : Shape ι)
  | orElse (left right : Shape ι)

namespace Shape

variable {ι : Type}

/-- A constant, by the strings for the places. -/
def value (strings : ι → List Char) : ι ⊕ { z : Int // InRange z } → Value
  | .inl i => .string (some (strings i))
  | .inr z => .int z

/-- The predicate with strings in its places. -/
def fill (strings : ι → List Char) : Shape ι → Expression
  | .comparison type _ m constant =>
      .binary type (.member m) (.constant (value strings constant))
  | .andAlso left right => .binary .andAlso (left.fill strings) (right.fill strings)
  | .orElse left right => .binary .orElse (left.fill strings) (right.fill strings)

/-- The places for strings, from left to right. -/
def positions : Shape ι → List ι
  | .comparison _ _ _ (.inl i) => [i]
  | .comparison _ _ _ (.inr _) => []
  | .andAlso left right => left.positions ++ right.positions
  | .orElse left right => left.positions ++ right.positions

end Shape

/-- The clauses for two choices of strings are one condition up to the contents
    of the literals, and the literals of each are its strings. -/
def Parameterized {ι : Type} (T : Entity) (reserved : List Char → Bool) (newLine : List Char)
    (context : DBQueryContext) (shape : Shape ι) (strings strings' : ι → List Char) : Prop :=
  ∃ context₁ context₂ clause₁ clause₂ c₁ c₂,
    context.whereBody (shape.fill strings) = .ok context₁ ∧
    context.whereBody (shape.fill strings') = .ok context₂ ∧
    context₁.buildQuery T newLine =
      context₁.selectLine T ++ newLine ++ "WHERE ".toList ++ clause₁ ++ newLine ∧
    context₂.buildQuery T newLine =
      context₂.selectLine T ++ newLine ++ "WHERE ".toList ++ clause₂ ++ newLine ∧
    parse reserved clause₁ = some c₁ ∧ parse reserved clause₂ = some c₂ ∧
    c₁.blank = c₂.blank ∧
    c₁.literals = shape.positions.map strings ∧ c₂.literals = shape.positions.map strings'

section

variable {ι : Type} {T : Entity} {reserved : List Char → Bool} {newLine : List Char}
  {shape : Shape ι} {strings strings' : ι → List Char}

/-- A comparison in a shape is one of a member with a constant. -/
theorem fill_not_rejected (shape : Shape ι) (strings : ι → List Char) :
    (shape.fill strings).rejected = false := by
  induction shape with
  | comparison type htype m constant =>
      rw [Shape.fill, Expression.rejected]
      split
      · rfl
      · rfl
  | andAlso left right ihleft ihright =>
      change ((left.fill strings).rejected || (right.fill strings).rejected) = false
      rw [ihleft, ihright]
      rfl
  | orElse left right ihleft ihright =>
      change ((left.fill strings).rejected || (right.fill strings).rejected) = false
      rw [ihleft, ihright]
      rfl

/-- The words of a shape are the names of its members. -/
theorem fill_words (shape : Shape ι) (strings : ι → List Char) :
    (shape.fill strings).words = (shape.fill strings).names := by
  induction shape with
  | comparison type htype m constant =>
      cases constant with
      | inl i => rfl
      | inr z => rfl
  | andAlso left right ihleft ihright =>
      rw [Shape.fill, Expression.words, Expression.names, ihleft, ihright]
  | orElse left right ihleft ihright =>
      rw [Shape.fill, Expression.words, Expression.names, ihleft, ihright]

/-- Without places for strings, there is one predicate. -/
theorem fill_eq_of_no_positions (h : shape.positions = []) (strings strings' : ι → List Char) :
    shape.fill strings = shape.fill strings' := by
  induction shape with
  | comparison type htype m constant =>
      cases constant with
      | inl i => cases h
      | inr z => rfl
  | andAlso left right ihleft ihright =>
      rcases List.append_eq_nil_iff.mp h with ⟨hleft, hright⟩
      rw [Shape.fill, Shape.fill, ihleft hleft, ihright hright]
  | orElse left right ihleft ihright =>
      rcases List.append_eq_nil_iff.mp h with ⟨hleft, hright⟩
      rw [Shape.fill, Shape.fill, ihleft hleft, ihright hright]

/-- Without places for strings, a shape is about integers. -/
theorem typed_fill (h : shape.positions = []) (strings : ι → List Char) {T : Entity}
    (hT : ∀ w, T.type w = .int) : Typed T .bool (shape.fill strings) := by
  induction shape with
  | comparison type htype m constant =>
      cases constant with
      | inl i => cases h
      | inr z => exact .intComparison type htype (.intMember m (hT _)) (.intConstant z.1 z.2)
  | andAlso left right ihleft ihright =>
      rcases List.append_eq_nil_iff.mp h with ⟨hleft, hright⟩
      exact .andAlso (ihleft hleft) (ihright hright)
  | orElse left right ihleft ihright =>
      rcases List.append_eq_nil_iff.mp h with ⟨hleft, hright⟩
      exact .orElse (ihleft hleft) (ihright hright)

/-- A quote is no part of a word. -/
theorem count_apostrophe_of_word {w : List Char} (hw : ∀ c ∈ w, isWordChar c = true) :
    w.count apostrophe = 0 := by
  refine List.count_eq_zero.mpr (fun hmem => ?_)
  exact absurd (hw _ hmem) (by decide)

/-- An integer has no quotes. -/
theorem count_intToString (z : Int) : (intToString z).count apostrophe = 0 := by
  have hdigits : (Nat.toDigits 10 z.natAbs).count apostrophe = 0 :=
    count_apostrophe_of_word (fun c hc =>
      isWordChar_of_isDigit (Nat.isDigit_of_mem_toDigits (by decide) (by decide) hc))
  unfold intToString
  split
  · rw [List.count_cons_of_ne (by decide), hdigits]
  · exact hdigits

/-- An operator has no quotes. -/
theorem count_expressionTypeConvert (type : ExpressionType) :
    (expressionTypeConvert type).count apostrophe = 0 := by
  cases type with
  | _ => decide

/-- A text in parentheses has the quotes of its two sides. -/
theorem count_whereText_binary {type : ExpressionType} (htype : isComparison type = false)
    {left right : Expression} {s : List Char} (hs : whereText (.binary type left right) = .ok s) :
    ∃ l r, whereText left = .ok l ∧ whereText right = .ok r ∧
      s.count apostrophe = l.count apostrophe + r.count apostrophe := by
  rw [whereText, htype] at hs
  rcases bind_eq_ok hs with ⟨l, hl, hs⟩
  rcases bind_eq_ok hs with ⟨r, hr, hs⟩
  refine ⟨l, r, hl, hr, ?_⟩
  cases hs
  have hopen : ('(' :: l).count apostrophe = l.count apostrophe :=
    List.count_cons_of_ne (by decide)
  have hmiddle : ") ".toList.count apostrophe = 0 := by decide
  have hreopen : " (".toList.count apostrophe = 0 := by decide
  have hclose : [')'].count apostrophe = 0 := by decide
  simp only [List.count_append, hopen, hmiddle, hreopen, hclose, count_expressionTypeConvert,
    Nat.add_zero]

/-- The quotes in a text are among those of the strings in it. -/
theorem count_whereText_fill (shape : Shape ι) (strings : ι → List Char) :
    ∀ s, whereText (shape.fill strings) = .ok s →
      s.count apostrophe ≤ tally (fun i => (strings i).count apostrophe) shape.positions := by
  induction shape with
  | comparison type htype m constant =>
      intro s hs
      rw [Shape.fill, whereText] at hs
      by_cases hcomparison : isComparison type = true
      · rw [if_pos hcomparison] at hs
        cases hs
        -- Apostrophes can only come from the constant.
        rw [List.count_append, List.count_append, count_apostrophe_of_word m.chars,
          count_expressionTypeConvert]
        cases constant with
        | inl i => simp [Shape.value, Value.text, Shape.positions]
        | inr z => simp [Shape.value, Value.text, count_intToString]
      -- The sides of a `!=` leave nothing.
      · rw [if_neg hcomparison] at hs
        cases hs
        simp only [List.count_append, count_expressionTypeConvert]
        exact Nat.zero_le _
  | andAlso left right ihleft ihright =>
      intro s hs
      rcases count_whereText_binary rfl hs with ⟨l, r, hl, hr, hcount⟩
      rw [hcount, Shape.positions, tally_append]
      exact Nat.add_le_add (ihleft l hl) (ihright r hr)
  | orElse left right ihleft ihright =>
      intro s hs
      rcases count_whereText_binary rfl hs with ⟨l, r, hl, hr, hcount⟩
      rw [hcount, Shape.positions, tally_append]
      exact Nat.add_le_add (ihleft l hl) (ihright r hr)

/-- The quotes of some literals are more than those of their contents. -/
theorem tally_quotes (is : List ι) (strings : ι → List Char) :
    tally quotes (is.map strings) =
      2 * tally (fun i => (strings i).count apostrophe) is + 2 * is.length := by
  induction is with
  | nil => rfl
  | cons i is ih =>
      rw [List.map_cons, tally_cons, tally_cons, ih, List.length_cons]
      unfold quotes
      omega

/-- What `Where` does with a predicate of a shape. -/
theorem whereBody_fill (shape : Shape ι) (strings : ι → List Char) (context : DBQueryContext) :
    ∃ s, whereText (shape.fill strings) = .ok s ∧ s ≠ [] ∧
      context.whereBody (shape.fill strings) = .ok { context with where_ := s } := by
  have hbinary : ∃ type left right, shape.fill strings = .binary type left right := by
    cases shape with
    | _ => exact ⟨_, _, _, rfl⟩
  rcases hbinary with ⟨type, left, right, hfill⟩
  cases hs : whereText (shape.fill strings) with
  | error x =>
      have hrejected := (whereText_error_iff _).mp ⟨x, hs⟩
      rw [fill_not_rejected] at hrejected
      cases hrejected
  | ok s =>
      refine ⟨s, rfl, ?_, ?_⟩
      · rw [hfill] at hs
        exact whereText_ne_nil hs
      · rw [hfill] at hs ⊢
        simp only [DBQueryContext.whereBody, hs]
        rfl

/-- Two choices of strings give one condition with the strings as its literals,
    if and only if there is no place for a string, no `!=`, and no name that is
    reserved. -/
theorem parameterized_iff (shape : Shape ι) (strings strings' : ι → List Char) (T : Entity)
    (reserved : List Char → Bool) (newLine : List Char) (context : DBQueryContext) :
    Parameterized T reserved newLine context shape strings strings' ↔
      shape.positions = [] ∧ (shape.fill strings).translated = true ∧
        ∀ w ∈ (shape.fill strings).names, ¬ IsReserved reserved w := by
  rcases whereBody_fill shape strings context with ⟨s, hs, hne, hwhere⟩
  have hquery := @buildQuery_of_where T newLine { context with where_ := s } hne
  -- Without places the predicate is one about integers, whatever `T` is.
  have hread (hpositions : shape.positions = []) : ∃ s ts,
      Placed ⟨T.name, fun _ => .int⟩ reserved (shape.fill strings) s ts :=
    (typed_fill hpositions strings (fun _ => rfl)).placed (fill_not_rejected shape strings)
  constructor
  · rintro ⟨context₁, context₂, clause₁, clause₂, c₁, c₂, hwhere₁, -, hquery₁, -, hparse₁, -, -,
      hliterals₁, -⟩
    cases hwhere.symm.trans hwhere₁
    have hclause := List.append_cancel_left (List.append_cancel_right (hquery₁.symm.trans hquery))
    subst hclause
    have hpositions : shape.positions = [] := by
      have hquotes : tally quotes c₁.literals ≤
          ("1=1 AND ".toList ++ s ++ [' ']).count apostrophe := parse_quotes hparse₁
      have hcount := count_whereText_fill shape strings s hs
      have hfront : "1=1 AND ".toList.count apostrophe = 0 := by decide
      have hend : [' '].count apostrophe = 0 := by decide
      rw [hliterals₁, tally_quotes, List.count_append, List.count_append, hfront, hend] at hquotes
      exact List.length_eq_zero_iff.mp (by omega)
    refine ⟨hpositions, ?_⟩
    rcases hread hpositions with ⟨s', ts, hplaced⟩
    rw [hs.symm.trans hplaced.text |> Except.ok.inj, parse_clause hplaced.lexes] at hparse₁
    rw [← fill_words]
    exact hplaced.top.some_iff.mp (Option.isSome_iff_exists.mpr ⟨c₁, hparse₁⟩)
  · rintro ⟨hpositions, htranslated, hnames⟩
    rcases hread hpositions with ⟨s', ts, hplaced⟩
    rw [← fill_words] at hnames
    rcases Option.isSome_iff_exists.mp (hplaced.top.some_iff.mpr ⟨htranslated, hnames⟩) with
      ⟨c, hparse⟩
    cases hs.symm.trans hplaced.text
    rw [← parse_clause hplaced.lexes] at hparse
    have hliterals : c.literals = [] := by
      have hquotes := parse_quotes hparse
      have hcount := count_whereText_fill shape strings s hs
      have hfront : "1=1 AND ".toList.count apostrophe = 0 := by decide
      have hend : [' '].count apostrophe = 0 := by decide
      rw [hpositions, tally_nil] at hcount
      rw [List.count_append, List.count_append, hfront, hend] at hquotes
      cases hc : c.literals with
      | nil => rfl
      | cons l ls =>
          rw [hc, tally_cons] at hquotes
          unfold quotes at hquotes
          omega
    have hsame := fill_eq_of_no_positions hpositions strings strings'
    refine ⟨_, _, _, _, c, c, hwhere, hsame ▸ hwhere, hquery, hquery, hparse, hparse, rfl, ?_, ?_⟩
    · rw [hliterals, hpositions]
      rfl
    · rw [hliterals, hpositions]
      rfl

end

/-- `x => x.Name == ?`. -/
def nameIs : Shape Unit :=
  .comparison .equal (by decide) ⟨"Name".toList, by decide, List.all_eq_true.mp (by decide),
    by decide⟩ (.inl ())

/-- `Name=John OR 1=1` is another condition than `Name=John`. -/
theorem constants_inject : ¬ ∀ (shape : Shape Unit) (strings strings' : Unit → List Char),
    Parameterized member (fun _ => false) ['\n'] DBQueryContext.new shape strings strings' := by
  intro h
  rcases h nameIs (fun _ => "John".toList) (fun _ => "John OR 1=1".toList) with
    ⟨context₁, context₂, clause₁, clause₂, c₁, c₂, hwhere₁, hwhere₂, hquery₁, hquery₂, hparse₁,
      hparse₂, hblank, -, -⟩
  have hcontext₁ : context₁ = ⟨[], "Name=John".toList⟩ := (Except.ok.inj hwhere₁).symm
  have hcontext₂ : context₂ = ⟨[], "Name=John OR 1=1".toList⟩ := (Except.ok.inj hwhere₂).symm
  rw [hcontext₁, buildQuery_of_where (by decide)] at hquery₁
  rw [hcontext₂, buildQuery_of_where (by decide)] at hquery₂
  have hclause₁ := List.append_cancel_left (List.append_cancel_right hquery₁)
  have hclause₂ := List.append_cancel_left (List.append_cancel_right hquery₂)
  have hfirst : parse (fun _ => false) ("1=1 AND ".toList ++ "Name=John".toList ++ [' ']) =
      some (.and oneIsOne (.compare .eq (.column "Name".toList) (.column "John".toList))) := by
    decide +kernel
  have hsecond : parse (fun _ => false) ("1=1 AND ".toList ++ "Name=John OR 1=1".toList ++ [' ']) =
      some (.or (.and oneIsOne (.compare .eq (.column "Name".toList) (.column "John".toList)))
        oneIsOne) := by
    decide +kernel
  rw [← hclause₁, hfirst] at hparse₁
  rw [← hclause₂, hsecond] at hparse₂
  cases hparse₁
  cases hparse₂
  cases hblank

end DynamicORMSample

end BlogSample
