import BlogSample.DynamicORMSample.Clause
import Mathlib.Data.List.Induction
import Mathlib.Data.Set.Defs

/-!
# Chained Filters

Calls of `Select` and `Where` on one context. `Select` adds to the fields it
has, and `Where` replaces the condition, so of several calls of `Where` only
the last one is left in the query. The clause is the conjunction of all of them
exactly if the last predicate implies the others.

## Main definitions

* `DBQueryContext.select`: `Select`.
* `Call.run`, `DBQueryContext.calls`: Calls on one context.
* `DBQueryContext.Filters`: What a query filters the rows of a table by.

## Theorems

* `filters_of_empty`, `filters_of_where`: The filter of a query, by its context.
* `calls_where`: What is left of the calls of `Where`.
* `chained_iff`: When the clause is the conjunction of all predicates.
-/

namespace BlogSample

namespace DynamicORMSample

open DotNet Sql

/-- The body of the lambda of `Select`: `new { ... }`, or anything else. -/
inductive Projection where
  | new (arguments : List Expression)
  | expression (e : Expression)
  deriving DecidableEq

namespace DBQueryContext

/-- The constructor. -/
def new : DBQueryContext where
  selectField := []
  where_ := []

/-- `AddRange` of the names. A cast that throws leaves the names before it. -/
def addNames : List Expression → DBQueryContext → Except Exn Unit × DBQueryContext
  | [], context => (.ok (), context)
  | e :: es, context =>
      match memberName e with
      | .ok name => addNames es { context with selectField := context.selectField ++ [name] }
      | .error x => (.error x, context)

/-- `Select(exp)`, by the body of `exp`. -/
def select (body : Projection) (context : DBQueryContext) : Except Exn Unit × DBQueryContext :=
  match body with
  | .new arguments => context.addNames arguments
  | .expression (.member m) =>
      (.ok (), { context with selectField := context.selectField ++ [m.text] })
  | .expression _ => (.ok (), context)

end DBQueryContext

/-- A call on a context. -/
inductive Call where
  | select (body : Projection)
  | where_ (body : Expression)
  deriving DecidableEq

/-- A call, and the context after it. -/
def Call.run (call : Call) (context : DBQueryContext) : Except Exn Unit × DBQueryContext :=
  match call with
  | .select body => context.select body
  | .where_ body =>
      match context.whereBody body with
      | .ok context' => (.ok (), context')
      | .error x => (.error x, context)

/-- The context after some calls. -/
def DBQueryContext.calls (context : DBQueryContext) (calls : List Call) : DBQueryContext :=
  calls.foldl (fun context call => (call.run context).2) context

/-- The predicate of a call of `Where`. -/
def Call.predicate : Call → Option Expression
  | .select _ => none
  | .where_ body => some body

/-- The predicates of some calls. -/
def predicates (calls : List Call) : List Expression :=
  calls.filterMap Call.predicate

section

variable {T : Entity} {reserved : List Char → Bool} {newLine : List Char}
  {read : Row T → List Char → Value} {table : Set (Row T)} {p : Row T → Prop}
  {context : DBQueryContext} {e : Expression}

/-- The query has no clause and all rows have the property, or it has one that
    is true for the rows that have the property and false for the others.
    `read` is how SQL reads the words in a row. -/
def DBQueryContext.Filters (context : DBQueryContext) (reserved : List Char → Bool)
    (newLine : List Char) (read : Row T → List Char → Value) (table : Set (Row T))
    (p : Row T → Prop) : Prop :=
  (context.buildQuery T newLine = context.selectLine T ++ newLine ∧ ∀ row ∈ table, p row) ∨
    ∃ clause c, context.buildQuery T newLine =
        context.selectLine T ++ newLine ++ "WHERE ".toList ++ clause ++ newLine ∧
      parse reserved clause = some c ∧
      ∀ row ∈ table, ∃ b, condition (read row) c = some b ∧ (b = true ↔ p row)

/-- The query without a condition. -/
theorem buildQuery_of_empty (h : context.where_ = []) :
    context.buildQuery T newLine = context.selectLine T ++ newLine := by
  unfold DBQueryContext.buildQuery
  rw [if_neg (not_not.mpr h)]

/-- The query with a condition. -/
theorem buildQuery_of_where (h : context.where_ ≠ []) :
    context.buildQuery T newLine = context.selectLine T ++ newLine ++ "WHERE ".toList ++
      ("1=1 AND ".toList ++ context.where_ ++ [' ']) ++ newLine := by
  unfold DBQueryContext.buildQuery
  rw [if_pos h]
  simp only [List.append_assoc]
  rfl

/-- A line more makes a query longer. -/
theorem front_ne (front clause : List Char) :
    front ≠ front ++ "WHERE ".toList ++ clause ++ newLine := by
  intro h
  have hlength := congrArg List.length h
  have hwhere : "WHERE ".toList.length = 6 := rfl
  simp only [List.length_append, hwhere] at hlength
  omega

/-- A query without a clause. -/
theorem filters_of_empty (h : context.where_ = []) :
    context.Filters reserved newLine read table p ↔ ∀ row ∈ table, p row := by
  have hquery := @buildQuery_of_empty T newLine context h
  constructor
  · rintro (⟨-, hall⟩ | ⟨clause, c, hclause, -, -⟩)
    · exact hall
    · exact absurd (hquery.symm.trans hclause) (front_ne _ clause)
  · exact fun hall => Or.inl ⟨hquery, hall⟩

/-- A query with a clause. -/
theorem filters_of_where (h : context.where_ ≠ []) :
    context.Filters reserved newLine read table p ↔
      ∃ c, parse reserved ("1=1 AND ".toList ++ context.where_ ++ [' ']) = some c ∧
        ∀ row ∈ table, ∃ b, condition (read row) c = some b ∧ (b = true ↔ p row) := by
  have hquery := @buildQuery_of_where T newLine context h
  constructor
  · rintro (⟨hnone, -⟩ | ⟨clause, c, hclause, hparse, hall⟩)
    · exact absurd (hnone.symm.trans hquery) (front_ne _ _)
    -- The clause is what stands between the same two texts.
    · have hsame := List.append_cancel_left (List.append_cancel_right (hclause.symm.trans hquery))
      exact ⟨c, hsame ▸ hparse, hall⟩
  · rintro ⟨c, hparse, hall⟩
    exact Or.inr ⟨_, c, hquery, hparse, hall⟩

/-- `Select` leaves the condition as it is. -/
theorem addNames_where (es : List Expression) :
    ∀ context : DBQueryContext, (context.addNames es).2.where_ = context.where_ := by
  induction es with
  | nil => exact fun _ => rfl
  | cons e es ih =>
      intro context
      rw [DBQueryContext.addNames]
      cases memberName e with
      | error x => rfl
      | ok name => exact ih _

theorem select_where (body : Projection) (context : DBQueryContext) :
    (context.select body).2.where_ = context.where_ := by
  cases body with
  | new arguments => exact addNames_where arguments context
  | expression e =>
      cases e with
      | member m => rfl
      | constant v => rfl
      | not e => rfl
      | binary type left right => rfl

/-- One more call. -/
theorem calls_concat (context : DBQueryContext) (calls : List Call) (call : Call) :
    context.calls (calls ++ [call]) = (call.run (context.calls calls)).2 := by
  unfold DBQueryContext.calls
  rw [List.foldl_append]
  rfl

theorem predicates_concat (calls : List Call) (call : Call) :
    predicates (calls ++ [call]) = predicates calls ++ call.predicate.toList := by
  unfold predicates
  rw [List.filterMap_append]
  cases h : call.predicate with
  | none => rw [List.filterMap_cons_none h]; rfl
  | some e => rw [List.filterMap_cons_some h]; rfl

/-- The last call of `Where` decides what is left of all. -/
theorem calls_where (calls : List Call) (h : ∀ e ∈ predicates calls, IntPredicate T e) :
    match (predicates calls).getLast? with
    | none => (DBQueryContext.new.calls calls).where_ = []
    | some e => ∃ ts, Written T reserved e (DBQueryContext.new.calls calls).where_ ts := by
  induction calls using List.reverseRecOn with
  | nil => rfl
  | append_singleton calls call ih =>
      rw [predicates_concat] at h ⊢
      rw [calls_concat]
      cases call with
      | select body =>
          rw [Call.predicate, Option.toList_none, List.append_nil] at h ⊢
          have hsame : ((Call.select body).run (DBQueryContext.new.calls calls)).2.where_ =
              (DBQueryContext.new.calls calls).where_ := select_where body _
          rw [hsame]
          exact ih h
      | where_ e =>
          have he : IntPredicate T e := h e (List.mem_append_right _ (List.mem_singleton_self e))
          rcases @IntPredicate.written T reserved e he with ⟨s, ts, hs⟩
          have hrun : (Call.where_ e).run (DBQueryContext.new.calls calls) =
              (.ok (), { DBQueryContext.new.calls calls with where_ := s }) := by
            simp only [Call.run, whereBody_eq he hs.text]
          rw [Call.predicate, Option.toList_some, List.getLast?_concat, hrun]
          exact ⟨ts, hs⟩

/-- The clause of a new context after any calls of `Select` and `Where` is the
    conjunction of all predicates, if and only if SQL can read the names in the
    last one and it implies the others. -/
theorem chained_iff (calls : List Call) (h : ∀ e ∈ predicates calls, IntPredicate T e)
    (table : Set (Row T)) (newLine : List Char) :
    (DBQueryContext.new.calls calls).Filters reserved newLine Row.value table
        (fun row => ∀ e ∈ predicates calls, e.eval row.value = some (.bool true)) ↔
      ∀ last ∈ (predicates calls).getLast?, (∀ w ∈ last.names, ¬ IsReserved reserved w) ∧
        ∀ row ∈ table, last.eval row.value = some (.bool true) →
          ∀ e ∈ predicates calls, e.eval row.value = some (.bool true) := by
  -- `_where` is what the last call of `Where` has written.
  have hwhere := @calls_where T reserved calls h
  cases hlast : (predicates calls).getLast? with
  | none =>
      rw [hlast] at hwhere
      rw [filters_of_empty hwhere, List.getLast?_eq_none_iff.mp hlast]
      constructor
      · intro _ last hmem
        cases hmem
      · intro _ row _ e he
        cases he
  | some last =>
      rw [hlast] at hwhere
      rcases hwhere with ⟨ts, hwritten⟩
      have hmem : last ∈ predicates calls := List.mem_of_getLast? hlast
      rw [filters_of_where hwritten.nonempty]
      have hmeans := hwritten.clause
      constructor
      · rintro ⟨c, hparse, hall⟩ e hsome
        cases hsome
        refine ⟨fun w hw hres => ?_, fun row hrow htrue => ?_⟩
        · rw [hmeans.none_iff.mpr ⟨w, hw, hres⟩] at hparse
          cases hparse
        -- The clause only says what the last predicate says.
        · rcases hall row hrow with ⟨b, hb, hiff⟩
          rcases hmeans.holds c hparse row with ⟨b', hb', heval⟩
          rw [hb', Option.some.injEq] at hb
          rw [htrue, Option.some.injEq, Value.bool.injEq] at heval
          exact hiff.mp (hb ▸ heval.symm)
      · intro hlast'
        rcases hlast' last rfl with ⟨hnames, himplies⟩
        -- A clause of unreserved words is one that the grammar accepts.
        cases hparse : parse reserved
            ("1=1 AND ".toList ++ (DBQueryContext.new.calls calls).where_ ++ [' ']) with
        | none =>
            rcases hmeans.none_iff.mp hparse with ⟨w, hw, hres⟩
            exact absurd hres (hnames w hw)
        | some c =>
            refine ⟨c, rfl, fun row hrow => ?_⟩
            rcases hmeans.holds c hparse row with ⟨b, hb, heval⟩
            refine ⟨b, hb, fun hb => ?_, fun hall => ?_⟩
            · exact himplies row hrow (hb ▸ heval)
            · have htrue := hall last hmem
              rw [heval, Option.some.injEq, Value.bool.injEq] at htrue
              exact htrue

end

/-- `x => x.Age > 10`. -/
def adult : Expression :=
  .binary .greaterThan (.member age) (.constant (.int 10))

/-- A call of `Select` between two filters, of which the second implies the
    first. -/
def narrowing : List Call :=
  [.where_ adult, .select (.new [.member age]),
    .where_ (.binary .equal (.member age) (.constant (.int 30)))]

/-- Two filters that do not imply each other. -/
def twoFilters : List Call :=
  [.where_ adult, .where_ (.binary .lessThan (.member age) (.constant (.int 20)))]

/-- The second filter is the conjunction of the two. -/
theorem chained_narrowing :
    (DBQueryContext.new.calls narrowing).Filters (fun _ => false) ['\n'] Row.value
      (Set.univ : Set (Row member))
      (fun row => ∀ e ∈ predicates narrowing, e.eval row.value = some (.bool true)) := by
  have hpredicates : ∀ e ∈ predicates narrowing, IntPredicate member e := by
    intro e he
    rcases List.mem_pair.mp he with rfl | rfl
    · exact .comparison .greaterThan age 10 rfl rfl (by decide)
    · exact .comparison .equal age 30 rfl rfl (by decide)
  refine (@chained_iff member (fun _ => false) narrowing hpredicates Set.univ ['\n']).mpr ?_
  intro last hlast
  cases hlast
  refine ⟨by decide, fun row _ htrue e he => ?_⟩
  rcases List.mem_pair.mp he with rfl | rfl
  · change (Expression.binary .equal (.member age) (.constant (.int 30))).eval row.value = _
      at htrue
    cases hage : row.value age.text with
    | int z =>
        -- An age of 30 is above 10.
        simp [Expression.eval, hage, ExpressionType.compare] at htrue
        simp [adult, Expression.eval, hage, ExpressionType.compare, htrue]
    | string s => simp [Expression.eval, hage, ExpressionType.compare] at htrue
    | bool b => simp [Expression.eval, hage, ExpressionType.compare] at htrue
  · exact htrue

/-- A member of age 5. -/
def young : Row member where
  value := fun w => if w = "Age".toList then .int 5 else .string none
  typed := by
    intro w
    change _ = if w = "Age".toList then ValueType.int else .string
    by_cases hw : w = "Age".toList
    · rw [if_pos hw, if_pos hw]
      rfl
    · rw [if_neg hw, if_neg hw]
      rfl

/-- Of `Where(x => x.Age > 10)` and `Where(x => x.Age < 20)`, the first is
    lost. -/
theorem chained_lost : ¬ ∀ (T : Entity) (calls : List Call),
    (∀ e ∈ predicates calls, IntPredicate T e) →
    (DBQueryContext.new.calls calls).Filters (fun _ => false) ['\n'] Row.value
      (Set.univ : Set (Row T))
      (fun row => ∀ e ∈ predicates calls, e.eval row.value = some (.bool true)) := by
  intro h
  have hfilters := h member twoFilters (by
    intro e he
    rcases List.mem_pair.mp he with rfl | rfl
    · exact .comparison .greaterThan age 10 rfl rfl (by decide)
    · exact .comparison .lessThan age 20 rfl rfl (by decide))
  have hwhere : (DBQueryContext.new.calls twoFilters).where_ = "Age<20".toList := by decide
  rw [filters_of_where (by rw [hwhere]; decide), hwhere] at hfilters
  rcases hfilters with ⟨c, hparse, hall⟩
  have hclause : parse (fun _ => false) ("1=1 AND ".toList ++ "Age<20".toList ++ [' ']) =
      some (.and oneIsOne (.compare .lt (.column "Age".toList) (.number 20))) := by decide
  -- The clause is true for an age of 5, and the first filter is not.
  rcases hall young trivial with ⟨b, hb, hiff⟩
  have htrue : condition young.value
      (.and oneIsOne (.compare .lt (.column "Age".toList) (.number 20))) = some true := by decide
  rw [hclause, Option.some.injEq] at hparse
  rw [← hparse, htrue, Option.some.injEq] at hb
  have hadult := hiff.mp hb.symm adult List.mem_cons_self
  exact absurd hadult (by decide)

end DynamicORMSample

end BlogSample
