import BlogSample.DynamicORMSample.QueryContext
import BlogSample.Theory.SearchCondition

/-!
# The Clause Means the Predicate

What the text of a predicate on integers is as SQL. Every side of an `AND` or
an `OR` stands in parentheses, so it is read as one factor, and the operators
inside do not mix with those outside. Only the outermost operator has none
around it. It follows `1=1 AND`, so an `OR` there makes the clause
`(1=1 AND a) OR b`, which is no different from `1=1 AND (a OR b)` because `1=1`
is true.

A name goes into the text without quotes. If it is a reserved word, its
comparison is none for SQL, and then the whole clause is none.

## Main definitions

* `IntPredicate`: The lambdas in question.
* `Lexes`: The tokens of a text.
* `Means`: A condition is what the predicate is, unless a name is reserved.

## Theorems

* `IntPredicate.written`: The text of a predicate, and how SQL reads it.
* `parse_clause`, `Written.clause`: The condition that the clause is.
* `where_means`: When the clause of a query means the predicate.
-/

namespace BlogSample

namespace DynamicORMSample

open DotNet Sql

/-- Comparisons of integer members with integer constants, combined with `&&`
    and `||`. -/
inductive IntPredicate (T : Entity) : Expression → Prop where
  | comparison (type : ExpressionType) (m : Name) (z : Int) (htype : isComparison type = true)
      (hm : T.type m.text = .int) (hz : InRange z) :
      IntPredicate T (.binary type (.member m) (.constant (.int z)))
  | andAlso {left right : Expression} (hleft : IntPredicate T left)
      (hright : IntPredicate T right) : IntPredicate T (.binary .andAlso left right)
  | orElse {left right : Expression} (hleft : IntPredicate T left)
      (hright : IntPredicate T right) : IntPredicate T (.binary .orElse left right)

/-- The names in an expression. -/
def Expression.names : Expression → List (List Char)
  | .member m => [m.text]
  | .constant _ => []
  | .not e => e.names
  | .binary _ left right => left.names ++ right.names

/-- The value of an operand in a row. -/
def operandValue (value : List Char → Value) : Operand → Value
  | .column w => value w
  | .number z => .int z
  | .string s => .string (some s)

/-- A comparison of two values of SQL. -/
def compareValues : CompareOp → Value → Value → Option Bool
  | .eq, .int a, .int b => some (a = b)
  | .ne, .int a, .int b => some (a ≠ b)
  | .lt, .int a, .int b => some (a < b)
  | .le, .int a, .int b => some (a ≤ b)
  | .gt, .int a, .int b => some (a > b)
  | .ge, .int a, .int b => some (a ≥ b)
  | .eq, .string (some a), .string (some b) => some (a = b)
  | .ne, .string (some a), .string (some b) => some (a ≠ b)
  | .eq, .bool a, .bool b => some (a = b)
  | .ne, .bool a, .bool b => some (a ≠ b)
  | _, _, _ => none

/-- A condition on a row. -/
def condition (value : List Char → Value) (c : Cond) : Option Bool :=
  c.eval (fun op a b => compareValues op (operandValue value a) (operandValue value b))

/-- The operator of a comparison. -/
def compareOp : ExpressionType → CompareOp
  | .greaterThan => .gt
  | .lessThan => .lt
  | .greaterThanOrEqual => .ge
  | .lessThanOrEqual => .le
  | _ => .eq

/-- The tokens of an integer. -/
def intTokens (z : Int) : List Token :=
  if z < 0 then [.minus, .number z.natAbs] else [.number z.natAbs]

/-- `1=1`. -/
def oneIsOne : Cond :=
  .compare .eq (.number 1) (.number 1)

section

variable {T : Entity} {reserved : List Char → Bool} {e left right : Expression}

/-- The tokens of a text that does not end within a word. -/
def Lexes (reserved : List Char → Bool) (s : List Char) (ts : List Token) : Prop :=
  ∀ d rest, isWordChar d = false →
    lex reserved .gap (s ++ d :: rest) = ts ++ lex reserved .gap (d :: rest)

/-- There is a condition unless a name is reserved, and it holds for the rows
    for which the lambda returns true. -/
structure Means (T : Entity) (reserved : List Char → Bool) (e : Expression) (o : Option Cond) :
    Prop where
  none_iff : o = none ↔ ∃ w ∈ e.names, IsReserved reserved w
  holds (c : Cond) : o = some c → ∀ row : Row T, ∃ b, condition row.value c = some b ∧
    e.eval row.value = some (.bool b)

section

variable {value : List Char → Value} {c d : Cond} {p q : Bool}

theorem condition_and (hc : condition value c = some p) (hd : condition value d = some q) :
    condition value (.and c d) = some (p && q) := by
  change (do
    let p ← condition value c
    let q ← condition value d
    some (p && q)) = _
  rw [hc, hd]
  rfl

theorem condition_or (hc : condition value c = some p) (hd : condition value d = some q) :
    condition value (.or c d) = some (p || q) := by
  change (do
    let p ← condition value c
    let q ← condition value d
    some (p || q)) = _
  rw [hc, hd]
  rfl

/-- The left side decides if it is false, and the right side if it is not. -/
theorem eval_andAlso (hleft : left.eval value = some (.bool p))
    (hright : right.eval value = some (.bool q)) :
    (Expression.binary .andAlso left right).eval value = some (.bool (p && q)) := by
  rw [Expression.eval, hleft]
  cases p with
  | true => exact hright
  | false => rfl

theorem eval_orElse (hleft : left.eval value = some (.bool p))
    (hright : right.eval value = some (.bool q)) :
    (Expression.binary .orElse left right).eval value = some (.bool (p || q)) := by
  rw [Expression.eval, hleft]
  cases p with
  | true => rfl
  | false => exact hright

end

/-- A leading `1=1` changes nothing. -/
theorem Means.leading {o : Option Cond} (h : Means T reserved e o) :
    Means T reserved e ((some oneIsOne).bind (fun c => o.map (fun d => .and c d))) := by
  refine ⟨?_, fun c hc row => ?_⟩
  · rw [← h.none_iff, Option.bind_some, Option.map_eq_none_iff]
  · rw [Option.bind_some, Option.map_eq_some_iff] at hc
    rcases hc with ⟨d, hd, rfl⟩
    rcases h.holds d hd row with ⟨b, hb, heval⟩
    have hand : condition row.value (.and oneIsOne d) = some (true && b) := condition_and rfl hb
    exact ⟨b, hand, heval⟩

/-- What keeps two conditions from being one. -/
theorem none_iff_of_names {a b : Option Cond} (type : ExpressionType)
    (ha : a = none ↔ ∃ w ∈ left.names, IsReserved reserved w)
    (hb : b = none ↔ ∃ w ∈ right.names, IsReserved reserved w) (f : Cond → Cond → Cond) :
    a.bind (fun c => b.map (fun d => f c d)) = none ↔
      ∃ w ∈ (Expression.binary type left right).names, IsReserved reserved w := by
  -- Both sides are needed.
  have hnone : a.bind (fun c => b.map (fun d => f c d)) = none ↔ a = none ∨ b = none := by
    cases a with
    | none => simp
    | some c => simp
  rw [hnone, ha, hb, Expression.names]
  simp only [List.mem_append, or_and_right, exists_or]

theorem Means.and {a b : Option Cond} (ha : Means T reserved left a)
    (hb : Means T reserved right b) :
    Means T reserved (.binary .andAlso left right)
      (a.bind (fun c => b.map (fun d => .and c d))) := by
  refine ⟨none_iff_of_names .andAlso ha.none_iff hb.none_iff .and, fun c hc row => ?_⟩
  rcases Option.bind_eq_some_iff.mp hc with ⟨c₁, hc₁, hmap⟩
  rcases Option.map_eq_some_iff.mp hmap with ⟨c₂, hc₂, rfl⟩
  rcases ha.holds c₁ hc₁ row with ⟨p, hp, hleft⟩
  rcases hb.holds c₂ hc₂ row with ⟨q, hq, hright⟩
  exact ⟨p && q, condition_and hp hq, eval_andAlso hleft hright⟩

theorem Means.or {a b : Option Cond} (ha : Means T reserved left a)
    (hb : Means T reserved right b) :
    Means T reserved (.binary .orElse left right)
      (a.bind (fun c => b.map (fun d => .or c d))) := by
  refine ⟨none_iff_of_names .orElse ha.none_iff hb.none_iff .or, fun c hc row => ?_⟩
  rcases Option.bind_eq_some_iff.mp hc with ⟨c₁, hc₁, hmap⟩
  rcases Option.map_eq_some_iff.mp hmap with ⟨c₂, hc₂, rfl⟩
  rcases ha.holds c₁ hc₁ row with ⟨p, hp, hleft⟩
  rcases hb.holds c₂ hc₂ row with ⟨q, hq, hright⟩
  exact ⟨p || q, condition_or hp hq, eval_orElse hleft hright⟩

/-- An integer starts with a digit or a minus sign. -/
theorem head_intToString (z : Int) (t : List Char) {d : Char} (hd : d.isDigit = false)
    (hminus : d ≠ '-') : (intToString z ++ t).head? ≠ some d := by
  rcases exists_toDigits z.natAbs with ⟨c, cs, hdigits, hall⟩
  unfold intToString
  intro h
  split_ifs at h
  · exact hminus (Option.some.inj h).symm
  · rw [hdigits] at h
    have hc := hall c List.mem_cons_self
    rw [Option.some.inj h, hd] at hc
    exact Bool.false_ne_true hc

/-- The text of an integer. -/
theorem lexes_int (z : Int) : Lexes reserved (intToString z) (intTokens z) := by
  intro d rest hd
  unfold intToString intTokens
  by_cases hz : z < 0
  · rw [if_pos hz, if_pos hz, List.cons_append, lex_minus, lex_digits z.natAbs hd]
    · rfl
    -- The digits follow, and no second sign.
    · rcases exists_toDigits z.natAbs with ⟨c, cs, hdigits, hall⟩
      rw [hdigits]
      intro h
      have hc := hall c List.mem_cons_self
      rw [Option.some.inj h] at hc
      exact absurd hc (by decide)
  · rw [if_neg hz, if_neg hz, lex_digits z.natAbs hd]
    rfl

/-- The operand that an integer is. -/
theorem reads_int (z : Int) : ReadsOperand (intTokens z) (some (.number z)) := by
  intro rest
  unfold intTokens
  by_cases hz : z < 0
  · rw [if_pos hz]
    have hvalue : -(z.natAbs : Int) = z := by omega
    change some (Operand.number (-(z.natAbs : Int)), rest) = _
    rw [hvalue]
    rfl
  · rw [if_neg hz]
    have hvalue : (z.natAbs : Int) = z := by omega
    change some (Operand.number (z.natAbs : Int), rest) = _
    rw [hvalue]
    rfl

/-- The text of a comparison operator. -/
theorem expressionTypeConvert_eq {type : ExpressionType} (h : isComparison type = true) :
    expressionTypeConvert type = (compareOp type).text := by
  cases type with
  | notEqual => cases h
  | andAlso => cases h
  | orElse => cases h
  | _ => rfl

/-- A comparison operator ends a word. -/
theorem exists_text (op : CompareOp) :
    ∃ d ds, op.text = d :: ds ∧ isWordChar d = false := by
  cases op with
  | eq => exact ⟨_, _, rfl, by decide⟩
  | ne => exact ⟨_, _, rfl, by decide⟩
  | lt => exact ⟨_, _, rfl, by decide⟩
  | le => exact ⟨_, _, rfl, by decide⟩
  | gt => exact ⟨_, _, rfl, by decide⟩
  | ge => exact ⟨_, _, rfl, by decide⟩

/-- The tokens of a comparison, by those of its right side. -/
theorem lexes_comparison (m : Name) (op : CompareOp) {t : List Char} {ts : List Token}
    (ht : Lexes reserved t ts) (heq : ∀ rest, (t ++ rest).head? ≠ some '=')
    (hgt : ∀ rest, (t ++ rest).head? ≠ some '>') :
    Lexes reserved (m.text ++ op.text ++ t) (classify reserved m.text :: .compare op :: ts) := by
  intro d rest hd
  -- The name ends where the operator starts.
  rcases exists_text op with ⟨c, cs, htext, hc⟩
  have hsplit : m.text ++ op.text ++ t ++ d :: rest = m.text ++ c :: (cs ++ (t ++ d :: rest)) := by
    rw [List.append_assoc, List.append_assoc, htext]
    rfl
  rw [hsplit, lex_word m.nonempty m.chars hc, ← List.cons_append, ← htext,
    lex_compare op (heq _) (hgt _), ht d rest hd]
  rfl

/-- What a comparison is, by its right side, unless its name is reserved. -/
theorem reads_comparison (m : Name) (op : CompareOp) {ts : List Token} {o : Option Operand}
    (h : ReadsOperand ts o) :
    ReadsFactor (classify reserved m.text :: .compare op :: ts)
      (if IsReserved reserved m.text then none
        else o.map (fun b => .compare op (.column m.text) b)) := by
  rcases @classify_name reserved _ m.start with ⟨hres, hmem⟩ | ⟨hres, hword⟩
  · rw [if_pos hres]
    generalize classify reserved m.text = t at hmem
    by_cases hnot : t = .not
    -- After `NOT` there would have to be something to compare.
    · have hnone : ReadsFactor (.compare op :: ts) none := by
        intro n rest hn
        rcases n with _ | n
        · omega
        · rfl
      rw [hnot]
      exact hnone.not
    · have hparen : t ≠ .lparen := by
        intro hparen
        rw [hparen] at hmem
        exact absurd hmem (by decide)
      exact (readsOperand_keyword hmem).compare ⟨hnot, hparen⟩ h op
  · rw [if_neg hres, hword]
    have hcolumn : ReadsOperand [.word m.text] (some (.column m.text)) := fun rest => rfl
    exact hcolumn.compare (by simp) h op

/-- A comparison means what the lambda compares. -/
theorem means_comparison {type : ExpressionType} (htype : isComparison type = true) {m : Name}
    (hm : T.type m.text = .int) (z : Int) :
    Means T reserved (.binary type (.member m) (.constant (.int z)))
      (if IsReserved reserved m.text then none
        else some (.compare (compareOp type) (.column m.text) (.number z))) := by
  refine ⟨?_, fun c hc row => ?_⟩
  · have hnames : (Expression.binary type (.member m) (.constant (.int z))).names = [m.text] :=
      rfl
    rw [hnames]
    by_cases hres : IsReserved reserved m.text
    · simp [hres]
    · simp [hres]
  · by_cases hres : IsReserved reserved m.text
    · rw [if_pos hres] at hc
      cases hc
    · rw [if_neg hres, Option.some.injEq] at hc
      rcases hvalue : row.value m.text with a | s | b
      -- Both sides compare the same two integers.
      · subst hc
        cases type with
        | notEqual => cases htype
        | andAlso => cases htype
        | orElse => cases htype
        | _ =>
            simp [condition, Cond.eval, operandValue, compareOp, compareValues, hvalue,
              Expression.eval, ExpressionType.compare]
      -- The other values are excluded by the type of the column.
      · have htyped := row.typed m.text
        rw [hvalue, hm] at htyped
        cases htyped
      · have htyped := row.typed m.text
        rw [hvalue, hm] at htyped
        cases htyped

/-- The tokens of two texts in parentheses with an operator between them. -/
theorem lexes_binary {l r : List Char} {ts us : List Token} (hl : Lexes reserved l ts)
    (hr : Lexes reserved r us) (type : ExpressionType) (op : List Token)
    (hword : ∀ rest, lex reserved .gap (' ' :: expressionTypeConvert type ++ ' ' :: rest) =
      op ++ lex reserved .gap rest) :
    Lexes reserved
      ('(' :: l ++ ") ".toList ++ expressionTypeConvert type ++ " (".toList ++ r ++ [')'])
      (.lparen :: ts ++ [.rparen] ++ (op ++ (.lparen :: us ++ [.rparen]))) := by
  intro d rest hd
  have hsplit : '(' :: l ++ ") ".toList ++ expressionTypeConvert type ++ " (".toList ++ r ++
      [')'] ++ d :: rest =
      '(' :: (l ++ ')' :: (' ' :: expressionTypeConvert type ++ ' ' :: ('(' ::
        (r ++ ')' :: (d :: rest))))) := by
    simp
  have hlparen (s : List Char) : lex reserved .gap ('(' :: s) = .lparen :: lex reserved .gap s :=
    rfl
  have hrparen (s : List Char) : lex reserved .gap (')' :: s) = .rparen :: lex reserved .gap s :=
    rfl
  rw [hsplit, hlparen, hl ')' _ (by decide), hrparen, hword, hlparen, hr ')' _ (by decide),
    hrparen]
  simp

/-- `1=1 AND`, as tokens. -/
def leading : List Token :=
  [.number 1, .compare .eq, .number 1, .and]

/-- A factor after `1=1 AND`. -/
theorem reads_leading {ts : List Token} {o : Option Cond} (h : ReadsFactor ts o) :
    ReadsTerm (leading ++ ts) ((some oneIsOne).bind (fun c => o.map (fun d => .and c d))) := by
  have hone : ReadsOperand [.number 1] (some (.number 1)) := fun rest => rfl
  exact (hone.compare (by simp) hone .eq).term.and h

/-- The text of a predicate, and how it is read alone and after `1=1 AND`. -/
structure Written (T : Entity) (reserved : List Char → Bool) (e : Expression) (s : List Char)
    (ts : List Token) : Prop where
  text : whereText e = .ok s
  nonempty : s ≠ []
  lexes : Lexes reserved s ts
  alone : ∃ o, ReadsSearch ts o ∧ Means T reserved e o
  after : ∃ o, ReadsSearch (leading ++ ts) o ∧ Means T reserved e o

/-- A comparison is a factor. -/
theorem written_comparison {type : ExpressionType} (htype : isComparison type = true) {m : Name}
    (hm : T.type m.text = .int) (z : Int) :
    Written T reserved (.binary type (.member m) (.constant (.int z)))
      (m.text ++ (compareOp type).text ++ intToString z)
      (classify reserved m.text :: .compare (compareOp type) :: intTokens z) := by
  have hreads := @reads_comparison reserved m (compareOp type) _ _ (reads_int z)
  have hmeans := @means_comparison T reserved type htype m hm z
  have hlexes := lexes_comparison m (compareOp type) (@lexes_int reserved z)
    (fun rest => head_intToString z rest (by decide) (by decide))
    (fun rest => head_intToString z rest (by decide) (by decide))
  refine ⟨?_, ?_, hlexes, ⟨_, hreads.term.search, hmeans⟩,
    ⟨_, (reads_leading hreads).search, hmeans.leading⟩⟩
  · rw [whereText, if_pos htype, ← expressionTypeConvert_eq htype]
    rfl
  · intro hnil
    rw [List.append_assoc, List.append_eq_nil_iff] at hnil
    exact m.nonempty hnil.1

/-- Both sides of an operator are factors, as they are in parentheses. -/
theorem IntPredicate.written (he : IntPredicate T e) : ∃ s ts, Written T reserved e s ts := by
  induction he with
  | comparison type m z htype hm _ => exact ⟨_, _, written_comparison htype hm z⟩
  | @andAlso left right _ _ ihleft ihright =>
      rcases ihleft with ⟨l, ts, hleft⟩
      rcases ihright with ⟨r, us, hright⟩
      rcases hleft.alone with ⟨a, ha, hameans⟩
      rcases hright.alone with ⟨b, hb, hbmeans⟩
      -- The `1=1` goes with the left side of the `AND`, and is true.
      refine ⟨_, _, ?_, ?_, lexes_binary hleft.lexes hright.lexes .andAlso [.and] (fun rest => rfl),
        ⟨_, (ha.paren.term.and hb.paren).search, hameans.and hbmeans⟩, ⟨_, ?_,
          hameans.leading.and hbmeans⟩⟩
      · rw [whereText, if_neg (by decide), hleft.text, hright.text]
        rfl
      · exact List.cons_ne_nil _ _
      · rw [← List.append_assoc]
        exact ((reads_leading ha.paren).and hb.paren).search
  | @orElse left right _ _ ihleft ihright =>
      rcases ihleft with ⟨l, ts, hleft⟩
      rcases ihright with ⟨r, us, hright⟩
      rcases hleft.alone with ⟨a, ha, hameans⟩
      rcases hright.alone with ⟨b, hb, hbmeans⟩
      refine ⟨_, _, ?_, ?_, lexes_binary hleft.lexes hright.lexes .orElse [.or] (fun rest => rfl),
        ⟨_, ha.paren.term.search.or hb.paren.term, hameans.or hbmeans⟩, ⟨_, ?_,
          hameans.leading.or hbmeans⟩⟩
      · rw [whereText, if_neg (by decide), hleft.text, hright.text]
        rfl
      · exact List.cons_ne_nil _ _
      -- The `1=1` only goes with the left side of the `OR`.
      · rw [← List.append_assoc]
        exact (reads_leading ha.paren).search.or hb.paren.term

/-- The clause of a text. The space at the end of the line ends the last
    token. -/
theorem parse_clause {s : List Char} {ts : List Token} (h : Lexes reserved s ts) :
    parse reserved ("1=1 AND ".toList ++ s ++ [' ']) = parseTokens (leading ++ ts) := by
  have hprefix (t : List Char) :
      lex reserved .gap ("1=1 AND ".toList ++ t) = leading ++ lex reserved .gap t := rfl
  have hend : lex reserved .gap [' '] = [] := rfl
  rw [parse, List.append_assoc, hprefix, h ' ' [] (by decide), hend, List.append_nil]

/-- The clause of a predicate. -/
theorem Written.clause {s : List Char} {ts : List Token} (h : Written T reserved e s ts) :
    Means T reserved e (parse reserved ("1=1 AND ".toList ++ s ++ [' '])) := by
  rcases h.after with ⟨o, hreads, hmeans⟩
  rw [parse_clause h.lexes, hreads.parseTokens]
  exact hmeans

/-- What `Where` does with a predicate. -/
theorem whereBody_eq (he : IntPredicate T e) {s : List Char} (hs : whereText e = .ok s)
    (context : DBQueryContext) : context.whereBody e = .ok { context with where_ := s } := by
  cases he with
  | comparison type m z htype hm hz =>
      simp only [DBQueryContext.whereBody, hs]
      rfl
  | andAlso hleft hright =>
      simp only [DBQueryContext.whereBody, hs]
      rfl
  | orElse hleft hright =>
      simp only [DBQueryContext.whereBody, hs]
      rfl

/-- `Where` and `BuildQuery` make a clause of each predicate on integers. The
    clause is a condition that is true on exactly the rows on which the lambda
    is, if and only if no name in it is a reserved word. -/
theorem where_means (he : IntPredicate T e) (newLine : List Char) (context : DBQueryContext) :
    ∃ context' clause, context.whereBody e = .ok context' ∧
      context'.buildQuery T newLine =
        context.selectLine T ++ newLine ++ "WHERE ".toList ++ clause ++ newLine ∧
      ((∃ c, parse reserved clause = some c ∧ ∀ row : Row T,
          condition row.value c = some true ↔ e.eval row.value = some (.bool true)) ↔
        ∀ w ∈ e.names, ¬ IsReserved reserved w) := by
  rcases @IntPredicate.written T reserved e he with ⟨s, ts, hs⟩
  have hmeans := hs.clause
  refine ⟨{ context with where_ := s }, "1=1 AND ".toList ++ s ++ [' '], ?_, ?_, ?_⟩
  · exact whereBody_eq he hs.text context
  · unfold DBQueryContext.buildQuery
    rw [if_pos hs.nonempty]
    simp only [List.append_assoc]
    rfl
  · constructor
    -- A reserved word makes the clause unreadable.
    · intro h w hw hres
      rcases h with ⟨c, hc, -⟩
      rw [hmeans.none_iff.mpr ⟨w, hw, hres⟩] at hc
      cases hc
    · intro hnames
      cases ho : parse reserved ("1=1 AND ".toList ++ s ++ [' ']) with
      | none =>
          rcases hmeans.none_iff.mp ho with ⟨w, hw, hres⟩
          exact absurd hres (hnames w hw)
      | some c =>
          refine ⟨c, rfl, fun row => ?_⟩
          rcases hmeans.holds c ho row with ⟨b, hb, heval⟩
          rw [hb, heval, Option.some.injEq, Option.some.injEq, Value.bool.injEq]

end

/-- `Member`, whose members are a name and an age. -/
def member : Entity where
  name := "Member".toList
  type := fun w => if w = "Age".toList then .int else .string

def age : Name :=
  ⟨"Age".toList, by decide, List.all_eq_true.mp (by decide), by decide⟩

/-- `x => (x.Age > -1 && x.Age <= 100) || x.Age == 30`. -/
def sample : Expression :=
  .binary .orElse
    (.binary .andAlso
      (.binary .greaterThan (.member age) (.constant (.int (-1))))
      (.binary .lessThanOrEqual (.member age) (.constant (.int 100))))
    (.binary .equal (.member age) (.constant (.int 30)))

example : (DBQueryContext.mk [] []).whereBody sample =
    .ok ⟨[], "((Age>-1) AND (Age<=100)) OR (Age=30)".toList⟩ := by
  decide

/-- The clause of the sample means what the lambda returns. -/
theorem where_means_sample :
    ∃ context' clause, (DBQueryContext.mk [] []).whereBody sample = .ok context' ∧
      context'.buildQuery member ['\n'] =
        "SELECT * FROM Member\nWHERE ".toList ++ clause ++ ['\n'] ∧
      ∃ c, parse (fun _ => false) clause = some c ∧ ∀ row : Row member,
        condition row.value c = some true ↔ sample.eval row.value = some (.bool true) := by
  have hsample : IntPredicate member sample :=
    .orElse (.andAlso (.comparison .greaterThan age (-1) rfl (by decide) (by decide))
      (.comparison .lessThanOrEqual age 100 rfl (by decide) (by decide)))
      (.comparison .equal age 30 rfl (by decide) (by decide))
  rcases @where_means member (fun _ => false) sample hsample ['\n'] (DBQueryContext.mk [] []) with
    ⟨context', clause, hwhere, hquery, hmeans⟩
  exact ⟨context', clause, hwhere, hquery, hmeans.mpr (by decide)⟩

/-- An entity with a member `And`. -/
def gate : Entity where
  name := "Gate".toList
  type := fun _ => .int

def andMember : Name :=
  ⟨"And".toList, by decide, List.all_eq_true.mp (by decide), by decide⟩

/-- The clause `1=1 AND And=5` is no condition. -/
theorem where_reserved : ¬ ∀ (T : Entity) (e : Expression), IntPredicate T e →
    ∃ context' clause, (DBQueryContext.mk [] []).whereBody e = .ok context' ∧
      context'.buildQuery T ['\n'] =
        (DBQueryContext.mk [] []).selectLine T ++ ['\n'] ++ "WHERE ".toList ++ clause ++ ['\n'] ∧
      ∃ c, parse (fun _ => false) clause = some c ∧ ∀ row : Row T,
        condition row.value c = some true ↔ e.eval row.value = some (.bool true) := by
  intro h
  -- What `Where` and `BuildQuery` make of `x => x.And == 5`.
  rcases h gate (.binary .equal (.member andMember) (.constant (.int 5)))
    (.comparison .equal andMember 5 rfl rfl (by decide)) with
    ⟨context', clause, hwhere, hquery, c, hc, -⟩
  have hcontext : context' = ⟨[], "And=5".toList⟩ := (Except.ok.inj hwhere).symm
  rw [hcontext] at hquery
  have hclause : clause = "1=1 AND And=5 ".toList := by
    refine List.append_cancel_left (List.append_cancel_right (hquery.symm.trans ?_))
    decide
  have hnone : parse (fun _ => false) "1=1 AND And=5 ".toList = none := by
    decide
  rw [hclause, hnone] at hc
  cases hc

end DynamicORMSample

end BlogSample
