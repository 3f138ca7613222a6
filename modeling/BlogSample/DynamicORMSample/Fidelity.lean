import BlogSample.DynamicORMSample.Filters

/-!
# Dropped and Mangled Filters

What `Where` makes of any lambda that returns a truth value, with members and
constants that are integers or truth values. A body that is no binary
expression is not looked at, and the context keeps the clause it had. A side of
`&&`, `||` or `!=` that is no binary expression leaves empty parentheses, and
`!=` leaves nothing between its sides. Either way the clause is no condition.

A comparison of a member with a truth value is written with `True` or `False`,
which SQL reads as it is meant, since a truth value may be written in any
capitals. A member of such a name is taken for the truth value too.

## Main definitions

* `Typed`: The lambdas in question.
* `Expression.rejected`: Whether a cast throws.
* `Expression.translated`: Whether every part is written as it is meant.
* `asRead`: What SQL takes a word for.
* `KeepsFilter`: When the clause is what the lambda is.

## Theorems

* `whereText_error_iff`: When `Where` throws.
* `Typed.placed`: What the text of a lambda is as SQL.
* `whereBody_faithful_iff`: When `Where` throws or the clause is right.
-/

namespace BlogSample

namespace DynamicORMSample

open DotNet Sql

/-- Expressions with members and constants that are integers or truth
    values. -/
inductive Typed (T : Entity) : ValueType → Expression → Prop where
  | intMember (m : Name) (hm : T.type m.text = .int) : Typed T .int (.member m)
  | boolMember (m : Name) (hm : T.type m.text = .bool) : Typed T .bool (.member m)
  | intConstant (z : Int) (hz : InRange z) : Typed T .int (.constant (.int z))
  | boolConstant (b : Bool) : Typed T .bool (.constant (.bool b))
  | not {e : Expression} (he : Typed T .bool e) : Typed T .bool (.not e)
  | intComparison (type : ExpressionType) {left right : Expression}
      (htype : type ≠ .andAlso ∧ type ≠ .orElse) (hleft : Typed T .int left)
      (hright : Typed T .int right) : Typed T .bool (.binary type left right)
  | boolComparison (type : ExpressionType) {left right : Expression}
      (htype : type = .equal ∨ type = .notEqual) (hleft : Typed T .bool left)
      (hright : Typed T .bool right) : Typed T .bool (.binary type left right)
  | andAlso {left right : Expression} (hleft : Typed T .bool left)
      (hright : Typed T .bool right) : Typed T .bool (.binary .andAlso left right)
  | orElse {left right : Expression} (hleft : Typed T .bool left)
      (hright : Typed T .bool right) : Typed T .bool (.binary .orElse left right)

namespace Expression

def isMember : Expression → Bool
  | .member _ => true
  | _ => false

def isConstant : Expression → Bool
  | .constant _ => true
  | _ => false

/-- Does a comparison have another left side than a member, or another right
    side than a constant? -/
def rejected : Expression → Bool
  | .binary type left right =>
      if isComparison type then !(left.isMember && right.isConstant)
      else left.rejected || right.rejected
  | _ => false

/-- Is the expression built from comparisons, of members with constants, by
    `&&` and `||` alone? -/
def translated : Expression → Bool
  | .binary type left right =>
      if isComparison type then left.isMember && right.isConstant
      else (type == .andAlso || type == .orElse) && (left.translated && right.translated)
  | _ => false

/-- The words in the text of an expression. -/
def words : Expression → List (List Char)
  | .member m => [m.text]
  | .constant (.bool b) => [(Value.bool b).text]
  | .constant _ => []
  | .not e => e.words
  | .binary _ left right => left.words ++ right.words

end Expression

/-- What SQL takes a word for: a truth value, or the column of this name. -/
def asRead (value : List Char → Value) (w : List Char) : Value :=
  match truthValue w with
  | some b => .bool b
  | none => value w

section

variable {T : Entity} {reserved : List Char → Bool} {e left right : Expression} {t : ValueType}
  {value : List Char → Value}

/-- `Where` throws if a comparison is not one of a member with a constant. -/
theorem whereText_error_iff (e : Expression) :
    (∃ x, whereText e = .error x) ↔ e.rejected = true := by
  have hpure {s : List Char} : ¬ ∃ x, (pure s : Except Exn (List Char)) = .error x := by
    rintro ⟨x, hx⟩
    cases hx
  induction e with
  | member m => exact iff_of_false hpure Bool.false_ne_true
  | constant v => exact iff_of_false hpure Bool.false_ne_true
  | not e _ => exact iff_of_false hpure Bool.false_ne_true
  | binary type left right ihleft ihright =>
      rw [whereText, Expression.rejected]
      by_cases htype : isComparison type = true
      · rw [if_pos htype, if_pos htype]
        cases left with
        | member m =>
            cases right with
            | constant v => exact iff_of_false hpure Bool.false_ne_true
            | member m' => exact iff_of_true ⟨_, rfl⟩ rfl
            | not e => exact iff_of_true ⟨_, rfl⟩ rfl
            | binary type' l r => exact iff_of_true ⟨_, rfl⟩ rfl
        | constant v => exact iff_of_true ⟨_, rfl⟩ rfl
        | not e => exact iff_of_true ⟨_, rfl⟩ rfl
        | binary type' l r => exact iff_of_true ⟨_, rfl⟩ rfl
      · rw [if_neg htype, if_neg htype, Bool.or_eq_true]
        refine Iff.trans ?_ (or_congr ihleft ihright)
        -- The left side is looked at first.
        cases whereText left with
        | error x => exact iff_of_true ⟨x, rfl⟩ (Or.inl ⟨x, rfl⟩)
        | ok l =>
            cases whereText right with
            | error x => exact iff_of_true ⟨x, rfl⟩ (Or.inr ⟨x, rfl⟩)
            | ok r =>
                refine iff_of_false hpure ?_
                rintro (⟨x, hx⟩ | ⟨x, hx⟩)
                · cases hx
                · cases hx

theorem comparison_ne {type : ExpressionType} (h : isComparison type = true) :
    type ≠ .andAlso ∧ type ≠ .orElse := by
  refine ⟨?_, ?_⟩
  · rintro rfl
    cases h
  · rintro rfl
    cases h

/-- A comparison compares the values of its sides. -/
theorem eval_comparison {type : ExpressionType} (htype : type ≠ .andAlso ∧ type ≠ .orElse)
    {u v : Value} (hleft : left.eval value = some u) (hright : right.eval value = some v) :
    (Expression.binary type left right).eval value = (type.compare u v).map .bool := by
  cases type with
  | andAlso => exact absurd rfl htype.1
  | orElse => exact absurd rfl htype.2
  | _ =>
      simp only [Expression.eval, hleft, hright]
      exact Option.map_eq_bind.symm

/-- An expression has a value of its type where its members do. -/
theorem Typed.eval (he : Typed T t e) (hvalue : ∀ w ∈ e.names, (value w).type = T.type w) :
    ∃ v, e.eval value = some v ∧ v.type = t := by
  -- The operators look into their operands, so these are taken apart by type.
  have hbool {v : Value} (h : v.type = .bool) : ∃ b, v = .bool b := by
    cases v with
    | bool b => exact ⟨b, rfl⟩
    | int z => cases h
    | string s => cases h
  have hint {v : Value} (h : v.type = .int) : ∃ z, v = .int z := by
    cases v with
    | int z => exact ⟨z, rfl⟩
    | bool b => cases h
    | string s => cases h
  -- One case per rule of typing, in each of which the operator is defined.
  induction he with
  | intMember m hm => exact ⟨_, rfl, (hvalue _ (List.mem_singleton_self _)).trans hm⟩
  | boolMember m hm => exact ⟨_, rfl, (hvalue _ (List.mem_singleton_self _)).trans hm⟩
  | intConstant z hz => exact ⟨_, rfl, rfl⟩
  | boolConstant b => exact ⟨_, rfl, rfl⟩
  | not he ih =>
      rcases ih hvalue with ⟨v, hv, htype⟩
      rcases hbool htype with ⟨b, rfl⟩
      exact ⟨.bool (!b), by rw [Expression.eval, hv], rfl⟩
  | intComparison type htype hleft hright ihleft ihright =>
      rcases ihleft (fun w hw => hvalue w (List.mem_append_left _ hw)) with ⟨v, hv, hvtype⟩
      rcases ihright (fun w hw => hvalue w (List.mem_append_right _ hw)) with ⟨u, hu, hutype⟩
      rcases hint hvtype with ⟨a, rfl⟩
      rcases hint hutype with ⟨b, rfl⟩
      rw [eval_comparison htype hv hu]
      cases type with
      | andAlso => exact absurd rfl htype.1
      | orElse => exact absurd rfl htype.2
      | _ => exact ⟨_, rfl, rfl⟩
  | boolComparison type htype hleft hright ihleft ihright =>
      rcases ihleft (fun w hw => hvalue w (List.mem_append_left _ hw)) with ⟨v, hv, hvtype⟩
      rcases ihright (fun w hw => hvalue w (List.mem_append_right _ hw)) with ⟨u, hu, hutype⟩
      rcases hbool hvtype with ⟨a, rfl⟩
      rcases hbool hutype with ⟨b, rfl⟩
      rcases htype with rfl | rfl
      · rw [eval_comparison (by decide) hv hu]
        exact ⟨_, rfl, rfl⟩
      · rw [eval_comparison (by decide) hv hu]
        exact ⟨_, rfl, rfl⟩
  | andAlso hleft hright ihleft ihright =>
      rcases ihleft (fun w hw => hvalue w (List.mem_append_left _ hw)) with ⟨v, hv, hvtype⟩
      rcases ihright (fun w hw => hvalue w (List.mem_append_right _ hw)) with ⟨u, hu, hutype⟩
      rcases hbool hvtype with ⟨a, rfl⟩
      rcases hbool hutype with ⟨b, rfl⟩
      exact ⟨_, eval_andAlso hv hu, rfl⟩
  | orElse hleft hright ihleft ihright =>
      rcases ihleft (fun w hw => hvalue w (List.mem_append_left _ hw)) with ⟨v, hv, hvtype⟩
      rcases ihright (fun w hw => hvalue w (List.mem_append_right _ hw)) with ⟨u, hu, hutype⟩
      rcases hbool hvtype with ⟨a, rfl⟩
      rcases hbool hutype with ⟨b, rfl⟩
      exact ⟨_, eval_orElse hv hu, rfl⟩

/-- There is a condition where every part is written as it is meant and no word
    is reserved. It holds for the rows for which the lambda returns true, where
    the words have the types of the members. -/
structure Reading (T : Entity) (reserved : List Char → Bool) (e : Expression) (o : Option Cond) :
    Prop where
  some_iff : o.isSome = true ↔
    e.translated = true ∧ ∀ w ∈ e.words, ¬ IsReserved reserved w
  holds (c : Cond) : o = some c → ∀ value : List Char → Value,
    (∀ w ∈ e.names, (asRead value w).type = T.type w) →
    ∃ b, condition (asRead value) c = some b ∧ e.eval (asRead value) = some (.bool b)
  strict (c : Cond) : o = some c → ∀ (value : List Char → Value) (b : Bool),
    condition (asRead value) c = some b → ∀ w ∈ e.names, (asRead value w).type = T.type w

/-- What is not written as it is meant is no condition. -/
theorem Reading.of_untranslated (h : e.translated = false) : Reading T reserved e none := by
  refine ⟨?_, fun c hc => ?_, fun c hc => ?_⟩
  · rw [h]
    simp
  · cases hc
  · cases hc

/-- A leading `1=1` changes nothing. -/
theorem Reading.leading {o : Option Cond} (h : Reading T reserved e o) :
    Reading T reserved e ((some oneIsOne).bind (fun c => o.map (fun d => .and c d))) := by
  rw [Option.bind_some]
  have hcond (value : List Char → Value) (d : Cond) :
      condition value (.and oneIsOne d) = condition value d := by
    cases hd : condition value d with
    | none =>
        change (do
          let p ← some true
          let q ← condition value d
          some (p && q)) = none
        rw [hd]
        rfl
    | some q => exact condition_and (p := true) rfl hd
  refine ⟨?_, fun c hc value hvalue => ?_, fun c hc value b hb => ?_⟩
  · rw [Option.isSome_map]
    exact h.some_iff
  · rcases Option.map_eq_some_iff.mp hc with ⟨d, hd, rfl⟩
    rw [hcond]
    exact h.holds d hd value hvalue
  · rcases Option.map_eq_some_iff.mp hc with ⟨d, hd, rfl⟩
    rw [hcond] at hb
    exact h.strict d hd value b hb

/-- Both sides of an operator. -/
theorem Reading.binary {type : ExpressionType} (htype : type = .andAlso ∨ type = .orElse)
    {a b : Option Cond} (ha : Reading T reserved left a) (hb : Reading T reserved right b)
    (f : Cond → Cond → Cond) (op : Bool → Bool → Bool)
    (hcond : ∀ value c d, condition value (f c d) = (do
      let p ← condition value c
      let q ← condition value d
      some (op p q)))
    (heval : ∀ value p q, left.eval value = some (.bool p) → right.eval value = some (.bool q) →
      (Expression.binary type left right).eval value = some (.bool (op p q))) :
    Reading T reserved (.binary type left right) (a.bind (fun c => b.map (fun d => f c d))) := by
  have hcomparison : isComparison type = false := by
    rcases htype with rfl | rfl
    · rfl
    · rfl
  have htranslated : (Expression.binary type left right).translated =
      (left.translated && right.translated) := by
    have hop : (type == .andAlso || type == .orElse) = true := by
      rcases htype with rfl | rfl
      · rfl
      · rfl
    rw [Expression.translated, hcomparison, hop, Bool.true_and]
    rfl
  -- Both sides must be translated for the whole to be.
  have hsome {c : Cond} (h : a.bind (fun c => b.map (fun d => f c d)) = some c) :
      ∃ c₁ c₂, a = some c₁ ∧ b = some c₂ ∧ f c₁ c₂ = c := by
    rcases Option.bind_eq_some_iff.mp h with ⟨c₁, hc₁, hmap⟩
    rcases Option.map_eq_some_iff.mp hmap with ⟨c₂, hc₂, hc⟩
    exact ⟨c₁, c₂, hc₁, hc₂, hc⟩
  refine ⟨?_, fun c hc value hvalue => ?_, fun c hc value p hp w hw => ?_⟩
  -- By the words and the shapes of the two sides.
  · have hboth : (a.bind (fun c => b.map (fun d => f c d))).isSome = true ↔
        a.isSome = true ∧ b.isSome = true := by
      cases a with
      | none => simp
      | some c => simp
    rw [hboth, ha.some_iff, hb.some_iff, htranslated, Expression.words, Bool.and_eq_true]
    simp only [List.mem_append, or_imp, forall_and]
    exact and_and_and_comm
  -- By the values of the two sides, under the same assignment.
  · rcases hsome hc with ⟨c₁, c₂, hc₁, hc₂, rfl⟩
    rcases ha.holds c₁ hc₁ value (fun w hw => hvalue w (List.mem_append_left _ hw)) with
      ⟨p, hp, hleft⟩
    rcases hb.holds c₂ hc₂ value (fun w hw => hvalue w (List.mem_append_right _ hw)) with
      ⟨q, hq, hright⟩
    refine ⟨op p q, ?_, heval _ p q hleft hright⟩
    rw [hcond, hp, hq]
    rfl
  · rcases hsome hc with ⟨c₁, c₂, hc₁, hc₂, rfl⟩
    rw [hcond] at hp
    rcases Option.bind_eq_some_iff.mp hp with ⟨p₁, hp₁, hrest⟩
    rcases Option.bind_eq_some_iff.mp hrest with ⟨p₂, hp₂, -⟩
    rcases List.mem_append.mp hw with hw | hw
    · exact ha.strict c₁ hc₁ value p₁ hp₁ w hw
    · exact hb.strict c₂ hc₂ value p₂ hp₂ w hw

/-- The operand that a constant is. -/
def constantOperand (reserved : List Char → Bool) : Value → Option Operand
  | .int z => some (.number z)
  | .bool b =>
      if IsReserved reserved (Value.bool b).text then none else some (.column (Value.bool b).text)
  | .string _ => none

/-- The tokens of a constant. -/
def constantTokens (reserved : List Char → Bool) : Value → List Token
  | .int z => intTokens z
  | v => [classify reserved v.text]

/-- The text of a truth value is the word for it. -/
theorem asRead_text (value : List Char → Value) (b : Bool) :
    asRead value (Value.bool b).text = .bool b := by
  have htruth : truthValue (Value.bool b).text = some b := by
    cases b with
    | true => decide
    | false => decide
  rw [asRead, htruth]

theorem lexes_bool (b : Bool) :
    Lexes reserved (Value.bool b).text [classify reserved (Value.bool b).text] := by
  intro d rest hd
  have hchars : ∀ c ∈ (Value.bool b).text, isWordChar c = true := by
    cases b with
    | true => exact List.all_eq_true.mp (by decide)
    | false => exact List.all_eq_true.mp (by decide)
  have hne : (Value.bool b).text ≠ [] := by
    cases b with
    | true => decide
    | false => decide
  exact lex_word hne hchars hd rest

theorem reads_bool (b : Bool) :
    ReadsOperand [classify reserved (Value.bool b).text]
      (constantOperand reserved (.bool b)) := by
  have hstart : ((Value.bool b).text.headD 'a').isDigit = false := by
    cases b with
    | true => decide
    | false => decide
  rw [constantOperand]
  rcases @classify_name reserved _ hstart with ⟨hres, hmem⟩ | ⟨hres, hword⟩
  · rw [if_pos hres]
    exact readsOperand_keyword hmem
  · rw [if_neg hres, hword]
    exact fun rest => rfl

/-- SQL and C# compare two values of one type alike. -/
theorem exists_compare {type : ExpressionType} (htype : isComparison type = true) {u v : Value}
    (huv : u.type = v.type) (hv : v.type = .int ∨ (v.type = .bool ∧ type = .equal)) :
    ∃ b, compareValues (compareOp type) u v = some b ∧ type.compare u v = some b := by
  rcases hv with hint | ⟨hbool, rfl⟩
  · cases v with
    | int y =>
        cases u with
        | int x =>
            cases type with
            | notEqual => cases htype
            | andAlso => cases htype
            | orElse => cases htype
            | _ => exact ⟨_, rfl, rfl⟩
        | string s => cases huv
        | bool b => cases huv
    | string s => cases hint
    | bool b => cases hint
  · cases v with
    | bool y =>
        cases u with
        | bool x => exact ⟨_, rfl, rfl⟩
        | string s => cases huv
        | int z => cases huv
    | string s => cases hbool
    | int z => cases hbool

/-- SQL compares no values of different types. -/
theorem type_eq_of_compareValues {op : CompareOp} {u v : Value} {b : Bool}
    (h : compareValues op u v = some b) : u.type = v.type := by
  cases u with
  | int x =>
      cases v with
      | int y => rfl
      | string s => cases op <;> cases h
      | bool b => cases op <;> cases h
  | string s =>
      cases v with
      | int y => cases op <;> cases s <;> cases h
      | string s' => rfl
      | bool b => cases op <;> cases s <;> cases h
  | bool x =>
      cases v with
      | int y => cases op <;> cases h
      | string s => cases op <;> cases h
      | bool b => rfl

/-- What a constant is in a row. -/
theorem operandValue_constant (value : List Char → Value) {v : Value} {b : Operand}
    (hb : constantOperand reserved v = some b) : operandValue (asRead value) b = v := by
  cases v with
  | int z =>
      cases hb
      rfl
  | string s => cases hb
  | bool p =>
      rw [constantOperand] at hb
      by_cases hres : IsReserved reserved (Value.bool p).text
      · rw [if_pos hres] at hb
        cases hb
      · rw [if_neg hres] at hb
        cases hb
        exact asRead_text value p

/-- The words of a comparison are the member, and the constant if it is a truth
    value. -/
theorem words_comparison {type : ExpressionType} {m : Name} {v : Value}
    (hv : v.type = .int ∨ v.type = .bool) :
    (∀ w ∈ (Expression.binary type (.member m) (.constant v)).words, ¬ IsReserved reserved w) ↔
      ¬ IsReserved reserved m.text ∧ (constantOperand reserved v).isSome = true := by
  cases v with
  | int z => simp [Expression.words, constantOperand]
  | string s =>
      rcases hv with hv | hv
      · cases hv
      · cases hv
  | bool p => simp [Expression.words, constantOperand]

/-- A comparison of a member with a constant of its type. -/
theorem reading_comparison {type : ExpressionType} (htype : isComparison type = true) {m : Name}
    {v : Value} (hm : T.type m.text = v.type)
    (hv : v.type = .int ∨ (v.type = .bool ∧ type = .equal)) :
    Reading T reserved (.binary type (.member m) (.constant v))
      (if IsReserved reserved m.text then none
        else (constantOperand reserved v).map
          (fun b => .compare (compareOp type) (.column m.text) b)) := by
  have htranslated : (Expression.binary type (.member m) (.constant v)).translated = true := by
    rw [Expression.translated, if_pos htype]
    rfl
  have hnames : (Expression.binary type (.member m) (.constant v)).names = [m.text] := rfl
  -- The operand, and what it is in a row.
  have hsome {c : Cond} (hc : (if IsReserved reserved m.text then none
      else (constantOperand reserved v).map
        (fun b => .compare (compareOp type) (.column m.text) b)) = some c) :
      ∃ b, constantOperand reserved v = some b ∧
        .compare (compareOp type) (.column m.text) b = c := by
    by_cases hres : IsReserved reserved m.text
    · rw [if_pos hres] at hc
      cases hc
    · rw [if_neg hres] at hc
      exact Option.map_eq_some_iff.mp hc
  have hcondition (value : List Char → Value) {b : Operand}
      (hb : constantOperand reserved v = some b) :
      condition (asRead value) (.compare (compareOp type) (.column m.text) b) =
        compareValues (compareOp type) (asRead value m.text) v := by
    have hvalue := operandValue_constant value hb
    change compareValues _ _ (operandValue (asRead value) b) = _
    rw [hvalue]
    rfl
  refine ⟨?_, fun c hc value hvalue => ?_, fun c hc value p hp w hw => ?_⟩
  · rw [words_comparison (hv.imp_right And.left)]
    by_cases hres : IsReserved reserved m.text
    · simp [hres]
    · simp [hres, htranslated]
  · rcases hsome hc with ⟨b, hb, rfl⟩
    have htyped := hvalue m.text (hnames ▸ List.mem_singleton_self _)
    rcases exists_compare htype (htyped.trans hm) hv with ⟨p, hsql, hcsharp⟩
    refine ⟨p, (hcondition value hb).trans hsql, ?_⟩
    rw [eval_comparison (comparison_ne htype) rfl rfl, hcsharp]
    rfl
  · rcases hsome hc with ⟨b, hb, rfl⟩
    rw [hcondition value hb] at hp
    rw [hnames, List.mem_singleton] at hw
    rw [hw, type_eq_of_compareValues hp, hm]

/-- The text of an expression, and how it is read in parentheses and after
    `1=1 AND`. -/
structure Placed (T : Entity) (reserved : List Char → Bool) (e : Expression) (s : List Char)
    (ts : List Token) : Prop where
  text : whereText e = .ok s
  lexes : Lexes reserved s ts
  paren : ∃ o, ReadsFactor (.lparen :: ts ++ [.rparen]) o ∧ Reading T reserved e o
  top : Reading T reserved e (parseTokens (leading ++ ts))

/-- What is no binary expression leaves nothing. -/
theorem placed_nil (htext : whereText e = .ok []) (h : e.translated = false) :
    Placed T reserved e [] [] where
  text := htext
  lexes := fun _ _ _ => rfl
  paren := ⟨none, readsFactor_empty, .of_untranslated h⟩
  top := .of_untranslated h

/-- A comparison of a member with a constant. -/
theorem placed_comparison {type : ExpressionType} (htype : isComparison type = true) {m : Name}
    {v : Value} (hm : T.type m.text = v.type)
    (hv : v.type = .int ∨ (v.type = .bool ∧ type = .equal)) :
    Placed T reserved (.binary type (.member m) (.constant v))
      (m.text ++ (compareOp type).text ++ v.text)
      (classify reserved m.text :: .compare (compareOp type) :: constantTokens reserved v) := by
  have hreading := @reading_comparison T reserved type htype m v hm hv
  -- The text of the constant is read back as one operand, and does not run into
  -- the operator before it.
  have hconstant : Lexes reserved v.text (constantTokens reserved v) ∧
      ReadsOperand (constantTokens reserved v) (constantOperand reserved v) ∧
      ∀ rest, (v.text ++ rest).head? ≠ some '=' ∧ (v.text ++ rest).head? ≠ some '>' := by
    cases v with
    | int z =>
        exact ⟨lexes_int z, reads_int z, fun rest => ⟨head_intToString z rest (by decide)
          (by decide), head_intToString z rest (by decide) (by decide)⟩⟩
    | string s =>
        rcases hv with hv | ⟨hv, -⟩
        · cases hv
        · cases hv
    | bool b =>
        refine ⟨lexes_bool b, reads_bool b, fun rest => ?_⟩
        cases b with
        | true => exact ⟨by simp [Value.text], by simp [Value.text]⟩
        | false => exact ⟨by simp [Value.text], by simp [Value.text]⟩
  rcases hconstant with ⟨hlexes, hoperand, hhead⟩
  have hfactor := @reads_comparison reserved m (compareOp type) _ _ hoperand
  refine ⟨?_, lexes_comparison m _ hlexes (fun rest => (hhead rest).1) (fun rest => (hhead rest).2),
    ⟨_, hfactor.term.search.paren, hreading⟩, ?_⟩
  · rw [whereText, if_pos htype, ← expressionTypeConvert_eq htype]
    rfl
  · rw [(reads_leading hfactor).search.parseTokens]
    exact hreading.leading

/-- The text of a binary expression that is no comparison. -/
theorem whereText_binary {type : ExpressionType} (htype : isComparison type = false)
    {l r : List Char} (hl : whereText left = .ok l) (hr : whereText right = .ok r) :
    whereText (.binary type left right) =
      .ok ('(' :: l ++ ") ".toList ++ expressionTypeConvert type ++ " (".toList ++ r ++ [')']) := by
  rw [whereText, htype, hl, hr]
  rfl

/-- Nothing stands between the sides of a `!=`. -/
theorem placed_notEqual {l r : List Char} {ts us : List Token}
    (hl : Placed T reserved left l ts) (hr : Placed T reserved right r us) :
    ∃ s ts, Placed T reserved (.binary .notEqual left right) s ts := by
  have huntranslated : (Expression.binary .notEqual left right).translated = false := rfl
  rcases hl.paren with ⟨o, hfactor, -⟩
  have hnone : parseTokens (leading ++
      (.lparen :: ts ++ [.rparen] ++ ([] ++ (.lparen :: us ++ [.rparen])))) = none := by
    rw [← List.append_assoc]
    exact (reads_leading hfactor).search.parseTokens_append (us ++ [Token.rparen])
  refine ⟨_, _, whereText_binary rfl hl.text hr.text,
    lexes_binary hl.lexes hr.lexes .notEqual [] (fun rest => rfl),
    ⟨none, hfactor.term.search.paren_append (us ++ [Token.rparen]),
      .of_untranslated huntranslated⟩, ?_⟩
  rw [hnone]
  exact .of_untranslated huntranslated

/-- Both sides of `&&` and `||` are factors. -/
theorem placed_andAlso {l r : List Char} {ts us : List Token}
    (hl : Placed T reserved left l ts) (hr : Placed T reserved right r us) :
    ∃ s ts, Placed T reserved (.binary .andAlso left right) s ts := by
  rcases hl.paren with ⟨a, ha, haread⟩
  rcases hr.paren with ⟨b, hb, hbread⟩
  have hreading {o : Option Cond} (ho : Reading T reserved left o) :=
    ho.binary (Or.inl rfl) hbread .and (· && ·) (fun _ _ _ => rfl)
      (fun _ _ _ hp hq => eval_andAlso hp hq)
  refine ⟨_, _, whereText_binary rfl hl.text hr.text,
    lexes_binary hl.lexes hr.lexes .andAlso [.and] (fun rest => rfl),
    ⟨_, (ha.term.and hb).search.paren, hreading haread⟩, ?_⟩
  rw [← List.append_assoc]
  have htop := ((reads_leading ha).and hb).search.parseTokens
  exact htop ▸ hreading haread.leading

theorem placed_orElse {l r : List Char} {ts us : List Token}
    (hl : Placed T reserved left l ts) (hr : Placed T reserved right r us) :
    ∃ s ts, Placed T reserved (.binary .orElse left right) s ts := by
  rcases hl.paren with ⟨a, ha, haread⟩
  rcases hr.paren with ⟨b, hb, hbread⟩
  have hreading {o : Option Cond} (ho : Reading T reserved left o) :=
    ho.binary (Or.inr rfl) hbread .or (· || ·) (fun _ _ _ => rfl)
      (fun _ _ _ hp hq => eval_orElse hp hq)
  refine ⟨_, _, whereText_binary rfl hl.text hr.text,
    lexes_binary hl.lexes hr.lexes .orElse [.or] (fun rest => rfl),
    ⟨_, (ha.term.search.or hb.term).paren, hreading haread⟩, ?_⟩
  -- The `1=1` only goes with the left side of the `OR`.
  rw [← List.append_assoc]
  have htop := ((reads_leading ha).search.or hb.term).parseTokens
  exact htop ▸ hreading haread.leading

/-- A comparison that is not rejected is one of a member with a constant. -/
theorem exists_of_not_rejected {type : ExpressionType} (htype : isComparison type = true)
    (hr : (Expression.binary type left right).rejected = false) :
    ∃ m v, left = .member m ∧ right = .constant v := by
  rw [Expression.rejected, if_pos htype, Bool.not_eq_false', Bool.and_eq_true] at hr
  cases left with
  | member m =>
      cases right with
      | constant v => exact ⟨m, v, rfl, rfl⟩
      | _ => cases hr.2
  | _ => cases hr.1

/-- Both sides of what is no comparison have a text. -/
theorem placed_sides {type : ExpressionType} (htype : isComparison type = false)
    (hr : (Expression.binary type left right).rejected = false)
    (hleft : left.rejected = false → ∃ s ts, Placed T reserved left s ts)
    (hright : right.rejected = false → ∃ s ts, Placed T reserved right s ts) :
    ∃ l ts r us, Placed T reserved left l ts ∧ Placed T reserved right r us := by
  rw [Expression.rejected, htype] at hr
  rcases Bool.or_eq_false_iff.mp hr with ⟨hl, hr⟩
  rcases hleft hl with ⟨l, ts, hl⟩
  rcases hright hr with ⟨r, us, hr⟩
  exact ⟨l, ts, r, us, hl, hr⟩

/-- The text of a lambda that is not rejected. -/
theorem Typed.placed (he : Typed T t e) (hr : e.rejected = false) :
    ∃ s ts, Placed T reserved e s ts := by
  induction he with
  | intMember m hm => exact ⟨_, _, placed_nil rfl rfl⟩
  | boolMember m hm => exact ⟨_, _, placed_nil rfl rfl⟩
  | intConstant z hz => exact ⟨_, _, placed_nil rfl rfl⟩
  | boolConstant b => exact ⟨_, _, placed_nil rfl rfl⟩
  -- `!` is no binary expression, so nothing is written for it.
  | not he ih => exact ⟨_, _, placed_nil rfl rfl⟩
  | intComparison type htype hleft hright ihleft ihright =>
      -- A comparison of anything but a member with a constant is rejected.
      by_cases hcomparison : isComparison type = true
      · rcases exists_of_not_rejected hcomparison hr with ⟨m, v, rfl, rfl⟩
        cases hleft with
        | intMember _ hm =>
            cases hright with
            | intConstant z hz =>
                exact ⟨_, _, placed_comparison hcomparison (v := .int z) hm (Or.inl rfl)⟩
      · cases type with
        | notEqual =>
            rcases placed_sides rfl hr ihleft ihright with ⟨l, ts, r, us, hleft, hright⟩
            exact placed_notEqual hleft hright
        | andAlso => exact absurd rfl htype.1
        | orElse => exact absurd rfl htype.2
        | _ => exact absurd rfl hcomparison
  | boolComparison type htype hleft hright ihleft ihright =>
      rcases htype with rfl | rfl
      · rcases exists_of_not_rejected rfl hr with ⟨m, v, rfl, rfl⟩
        cases hleft with
        | boolMember _ hm =>
            cases hright with
            | boolConstant b =>
                exact ⟨_, _, placed_comparison rfl (v := .bool b) hm (Or.inr ⟨rfl, rfl⟩)⟩
      · rcases placed_sides rfl hr ihleft ihright with ⟨l, ts, r, us, hleft, hright⟩
        exact placed_notEqual hleft hright
  | andAlso hleft hright ihleft ihright =>
      rcases placed_sides rfl hr ihleft ihright with ⟨l, ts, r, us, hleft, hright⟩
      exact placed_andAlso hleft hright
  | orElse hleft hright ihleft ihright =>
      rcases placed_sides rfl hr ihleft ihright with ⟨l, ts, r, us, hleft, hright⟩
      exact placed_orElse hleft hright

/-- A binary expression has a text. -/
theorem whereText_ne_nil {type : ExpressionType} {s : List Char}
    (h : whereText (.binary type left right) = .ok s) : s ≠ [] := by
  rw [whereText] at h
  by_cases htype : isComparison type = true
  · rw [if_pos htype] at h
    rcases bind_eq_ok h with ⟨name, hname, h⟩
    rcases bind_eq_ok h with ⟨value, -, h⟩
    cases left with
    | member m =>
        cases hname
        cases h
        intro hnil
        rw [List.append_assoc, List.append_eq_nil_iff] at hnil
        exact m.nonempty hnil.1
    | _ => cases hname
  · rw [if_neg htype] at h
    rcases bind_eq_ok h with ⟨l, -, h⟩
    rcases bind_eq_ok h with ⟨r, -, h⟩
    cases h
    exact List.cons_ne_nil _ _

/-- What the rows are to be filtered by. -/
def Expression.Selects (e : Expression) (row : Row T) : Prop :=
  e.eval row.value = some (.bool true)

/-- A binary expression is rejected, or translated into a text that SQL reads as
    it is meant. Any other expression is what the rows are filtered by anyway. -/
def KeepsFilter (T : Entity) (reserved : List Char → Bool) (newLine : List Char)
    (context : DBQueryContext) (e : Expression) : Prop :=
  match e with
  | .binary _ _ _ =>
      e.rejected = true ∨
        (e.translated = true ∧ (∀ w ∈ e.words, ¬ IsReserved reserved w) ∧
          ∀ row : Row T, (∀ w ∈ e.names, (asRead row.value w).type = T.type w) ∧
            e.eval (asRead row.value) = e.eval row.value)
  | _ =>
      context.Filters reserved newLine (fun row : Row T => asRead row.value) Set.univ e.Selects

/-- The clause of a binary expression that is not rejected. -/
theorem filters_binary {type : ExpressionType} (he : Typed T .bool (.binary type left right))
    {s : List Char} {ts : List Token}
    (hs : Placed T reserved (.binary type left right) s ts) (newLine : List Char)
    (context : DBQueryContext) :
    DBQueryContext.Filters { context with where_ := s } reserved newLine
        (fun row : Row T => asRead row.value) Set.univ (Expression.binary type left right).Selects ↔
      ((Expression.binary type left right).translated = true ∧
        (∀ w ∈ (Expression.binary type left right).words, ¬ IsReserved reserved w) ∧
        ∀ row : Row T,
          (∀ w ∈ (Expression.binary type left right).names,
            (asRead row.value w).type = T.type w) ∧
          (Expression.binary type left right).eval (asRead row.value) =
            (Expression.binary type left right).eval row.value) := by
  generalize hedef : Expression.binary type left right = e at *
  have hne : s ≠ [] := by
    subst hedef
    exact whereText_ne_nil hs.text
  rw [filters_of_where hne, parse_clause hs.lexes]
  constructor
  · rintro ⟨c, hparse, hall⟩
    rcases hs.top.some_iff.mp (Option.isSome_iff_exists.mpr ⟨c, hparse⟩) with
      ⟨htranslated, hwords⟩
    refine ⟨htranslated, hwords, fun row => ?_⟩
    rcases hall row trivial with ⟨b, hb, hiff⟩
    have htyped := hs.top.strict c hparse row.value b hb
    rcases hs.top.holds c hparse row.value htyped with ⟨b', hb', heval⟩
    rw [hb, Option.some.injEq] at hb'
    subst hb'
    refine ⟨htyped, ?_⟩
    -- The lambda returns a truth value, which is the one of the clause.
    rcases he.eval (fun w _ => row.typed w) with ⟨v, hv, hvtype⟩
    rw [heval, hv]
    cases v with
    | int z => cases hvtype
    | string s => cases hvtype
    | bool p =>
        unfold Expression.Selects at hiff
        rw [hv, Option.some.injEq, Value.bool.injEq, ← Bool.eq_iff_iff] at hiff
        rw [hiff]
  · rintro ⟨htranslated, hwords, hrows⟩
    rcases Option.isSome_iff_exists.mp (hs.top.some_iff.mpr ⟨htranslated, hwords⟩) with
      ⟨c, hparse⟩
    refine ⟨c, hparse, fun row _ => ?_⟩
    rcases hrows row with ⟨htyped, hsame⟩
    rcases hs.top.holds c hparse row.value htyped with ⟨b, hb, heval⟩
    refine ⟨b, hb, ?_⟩
    unfold Expression.Selects
    rw [← hsame, heval, Option.some.injEq, Value.bool.injEq]

/-- `Where` throws or `BuildQuery` filters the rows by the lambda, if and only
    if the filter is kept. -/
theorem whereBody_faithful_iff (he : Typed T .bool e) (newLine : List Char)
    (context : DBQueryContext) :
    ((∃ x, context.whereBody e = .error x) ∨
      ∃ context', context.whereBody e = .ok context' ∧
        context'.Filters reserved newLine (fun row : Row T => asRead row.value) Set.univ
          e.Selects) ↔
      KeepsFilter T reserved newLine context e := by
  -- What is no binary expression leaves the context as it was.
  have hkept (hwhere : context.whereBody e = .ok context) :
      ((∃ x, context.whereBody e = .error x) ∨
        ∃ context', context.whereBody e = .ok context' ∧
          context'.Filters reserved newLine (fun row : Row T => asRead row.value) Set.univ
            e.Selects) ↔
        context.Filters reserved newLine (fun row : Row T => asRead row.value) Set.univ
          e.Selects := by
    rw [hwhere]
    constructor
    · rintro (⟨x, hx⟩ | ⟨context', hcontext, hfilters⟩)
      · cases hx
      · cases hcontext
        exact hfilters
    · exact fun hfilters => Or.inr ⟨context, rfl, hfilters⟩
  cases e with
  | member m => exact hkept rfl
  | constant v => exact hkept rfl
  | not e => exact hkept rfl
  | binary type left right =>
      simp only [DBQueryContext.whereBody, KeepsFilter]
      by_cases hrejected : (Expression.binary type left right).rejected = true
      · rcases (whereText_error_iff _).mpr hrejected with ⟨x, hx⟩
        rw [hx]
        exact iff_of_true (Or.inl ⟨x, rfl⟩) (Or.inl hrejected)
      · rcases @Typed.placed T reserved _ _ he (Bool.eq_false_iff.mpr hrejected) with ⟨s, ts, hs⟩
        rw [hs.text, or_iff_right hrejected, ← filters_binary he hs newLine context]
        constructor
        · rintro (⟨x, hx⟩ | ⟨context', hcontext, hfilters⟩)
          · cases hx
          · cases hcontext
            exact hfilters
        · exact fun hfilters => Or.inr ⟨_, rfl, hfilters⟩

end

/-- An entity with a balance and a mark whether it is active. -/
def account : Entity where
  name := "Account".toList
  type := fun w => if w = "Active".toList then .bool else .int

def active : Name :=
  ⟨"Active".toList, by decide, List.all_eq_true.mp (by decide), by decide⟩

def balance : Name :=
  ⟨"Balance".toList, by decide, List.all_eq_true.mp (by decide), by decide⟩

/-- `x => x.Active == true && x.Balance > 100`. -/
def spelledOut : Expression :=
  .binary .andAlso (.binary .equal (.member active) (.constant (.bool true)))
    (.binary .greaterThan (.member balance) (.constant (.int 100)))

/-- The lambda is translated, and no name in it is a truth value. -/
theorem whereBody_spelledOut :
    ∃ context', DBQueryContext.new.whereBody spelledOut = .ok context' ∧
      context'.Filters (fun _ => false) ['\n'] (fun row : Row account => asRead row.value) Set.univ
        spelledOut.Selects := by
  have htyped : Typed account .bool spelledOut :=
    .andAlso (.boolComparison .equal (Or.inl rfl) (.boolMember active rfl) (.boolConstant true))
      (.intComparison .greaterThan (by decide) (.intMember balance rfl)
        (.intConstant 100 (by decide)))
  have hkeeps : KeepsFilter account (fun _ => false) ['\n'] DBQueryContext.new spelledOut := by
    refine Or.inr ⟨rfl, by decide, fun row => ⟨fun w hw => ?_, rfl⟩⟩
    rcases List.mem_pair.mp hw with rfl | rfl
    · exact row.typed _
    · exact row.typed _
  rcases (whereBody_faithful_iff htyped ['\n'] DBQueryContext.new).mpr hkeeps with
    ⟨x, hx⟩ | hfilters
  · cases hx
  · exact hfilters

/-- `x => x.Balance != 5`. -/
def differs : Expression :=
  .binary .notEqual (.member balance) (.constant (.int 5))

example : DBQueryContext.new.whereBody differs = .ok ⟨[], "()  ()".toList⟩ := by decide

/-- The clause `1=1 AND ()  ()` is no condition. -/
theorem whereBody_mangled : ¬ ∀ (T : Entity) (e : Expression), Typed T .bool e →
    (∃ x, DBQueryContext.new.whereBody e = .error x) ∨
      ∃ context', DBQueryContext.new.whereBody e = .ok context' ∧
        context'.Filters (fun _ => false) ['\n'] (fun row : Row T => asRead row.value) Set.univ
          e.Selects := by
  intro h
  have htyped : Typed account .bool differs :=
    .intComparison .notEqual (by decide) (.intMember balance rfl) (.intConstant 5 (by decide))
  have hwhere : DBQueryContext.new.whereBody differs = .ok ⟨[], "()  ()".toList⟩ := by decide
  have hnone : parse (fun _ => false) ("1=1 AND ".toList ++ "()  ()".toList ++ [' ']) = none := by
    decide +kernel
  rcases h account differs htyped with ⟨x, hx⟩ | ⟨context', hcontext, hfilters⟩
  · rw [hwhere] at hx
    cases hx
  · rw [hwhere] at hcontext
    have hsame : context' = ⟨[], "()  ()".toList⟩ := (Except.ok.inj hcontext).symm
    rw [hsame, filters_of_where (by decide)] at hfilters
    rcases hfilters with ⟨c, hparse, -⟩
    rw [hnone] at hparse
    cases hparse

end DynamicORMSample

end BlogSample
