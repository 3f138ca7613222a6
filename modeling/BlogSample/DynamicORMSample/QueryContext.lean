import BlogSample.Int32
import BlogSample.Theory.SqlLexer

/-!
# The Query Context

`DBQueryContext<T>` turns a lambda into the text of a query. The compiler hands
it the body of the lambda as an expression tree. A comparison is written as the
name of its left side, the operator and the constant of its right side, and a
cast throws if a side is something else. Any other binary expression is written
as its two sides in parentheses with the operator between them. What is no
binary expression has no text.

Names and constants go into the text as they are. A name of C# may have
letters and digits of any script in it.

## Main definitions

* `Expression`: Expression trees.
* `Expression.eval`: What the lambda returns.
* `whereText`: The private method `Where`.
* `DBQueryContext.whereBody`: The public method `Where`.
* `DBQueryContext.buildQuery`: `BuildQuery`.
-/

namespace BlogSample

namespace DynamicORMSample

open DotNet Sql

/-- The name of a member: letters, digits and underscores, and no digit at its
    start. -/
structure Name where
  text : List Char
  nonempty : text ≠ []
  chars : ∀ c ∈ text, isWordChar c = true
  start : (text.headD 'a').isDigit = false
  deriving DecidableEq

/-- The types of members and constants. -/
inductive ValueType where
  | int
  | string
  | bool
  deriving DecidableEq, Repr

inductive Value where
  | int (z : Int)
  | string (s : Option (List Char))
  | bool (b : Bool)
  deriving DecidableEq, Repr

def Value.type : Value → ValueType
  | .int _ => .int
  | .string _ => .string
  | .bool _ => .bool

/-- `T`, by its name and the types of its members. -/
structure Entity where
  name : List Char
  type : List Char → ValueType

/-- An object of `T`, or a row of its table. -/
structure Row (T : Entity) where
  value : List Char → Value
  typed (w : List Char) : (value w).type = T.type w

/-- The kinds of binary expressions. -/
inductive ExpressionType where
  | equal
  | notEqual
  | greaterThan
  | greaterThanOrEqual
  | lessThan
  | lessThanOrEqual
  | andAlso
  | orElse
  deriving DecidableEq, Repr

/-- The body of a lambda. -/
inductive Expression where
  | member (m : Name)
  | constant (v : Value)
  | not (e : Expression)
  | binary (type : ExpressionType) (left right : Expression)
  deriving DecidableEq

/-- A comparison of two values of C#. -/
def ExpressionType.compare : ExpressionType → Value → Value → Option Bool
  | .equal, .int a, .int b => some (a = b)
  | .notEqual, .int a, .int b => some (a ≠ b)
  | .greaterThan, .int a, .int b => some (a > b)
  | .greaterThanOrEqual, .int a, .int b => some (a ≥ b)
  | .lessThan, .int a, .int b => some (a < b)
  | .lessThanOrEqual, .int a, .int b => some (a ≤ b)
  | .equal, .string a, .string b => some (a = b)
  | .notEqual, .string a, .string b => some (a ≠ b)
  | .equal, .bool a, .bool b => some (a = b)
  | .notEqual, .bool a, .bool b => some (a ≠ b)
  | _, _, _ => none

/-- What the lambda returns for an object. The right side of `&&` and `||` only
    counts if the left side does not decide. -/
def Expression.eval (value : List Char → Value) : Expression → Option Value
  | .member m => some (value m.text)
  | .constant v => some v
  | .not e =>
      match e.eval value with
      | some (.bool b) => some (.bool (!b))
      | _ => none
  | .binary .andAlso left right =>
      match left.eval value with
      | some (.bool true) => right.eval value
      | some (.bool false) => some (.bool false)
      | _ => none
  | .binary .orElse left right =>
      match left.eval value with
      | some (.bool true) => some (.bool true)
      | some (.bool false) => right.eval value
      | _ => none
  | .binary type left right => do
      let a ← left.eval value
      let b ← right.eval value
      let p ← type.compare a b
      some (.bool p)

/-- `ExpressionTypeConvert(type)`. -/
def expressionTypeConvert : ExpressionType → List Char
  | .equal => "=".toList
  | .greaterThan => ">".toList
  | .greaterThanOrEqual => ">=".toList
  | .lessThan => "<".toList
  | .lessThanOrEqual => "<=".toList
  | .andAlso => "AND".toList
  | .orElse => "OR".toList
  -- The default.
  | .notEqual => []

/-- `((MemberExpression)e).Member.Name`. -/
def memberName : Expression → Except Exn (List Char)
  | .member m => pure m.text
  | _ => throw .invalidCast

/-- The text of a value in an interpolated string. -/
def Value.text : Value → List Char
  | .int z => intToString z
  | .string none => []
  | .string (some s) => s
  | .bool true => "True".toList
  | .bool false => "False".toList

/-- `((ConstantExpression)e).Value`, as text. -/
def constantText : Expression → Except Exn (List Char)
  | .constant v => pure v.text
  | _ => throw .invalidCast

/-- The kinds that `Where` writes as a comparison. -/
def isComparison : ExpressionType → Bool
  | .greaterThan | .lessThan | .greaterThanOrEqual | .lessThanOrEqual | .equal => true
  | _ => false

/-- `Where<T>(exp)`, the text of an expression. -/
def whereText : Expression → Except Exn (List Char)
  | .binary type left right =>
      if isComparison type then do
        let name ← memberName left
        let value ← constantText right
        pure (name ++ expressionTypeConvert type ++ value)
      else do
        -- A side that is no binary expression leaves empty parentheses.
        let l ← whereText left
        let r ← whereText right
        pure ('(' :: l ++ ") ".toList ++ expressionTypeConvert type ++ " (".toList ++ r ++ [')'])
  | _ => pure []

/-- The fields of a `DBQueryContext<T>`. The list it is made from is never
    read. -/
structure DBQueryContext where
  selectField : List (List Char)
  where_ : List Char
  deriving DecidableEq

namespace DBQueryContext

/-- `Where(exp)`, by the body of `exp`. -/
def whereBody (body : Expression) (context : DBQueryContext) : Except Exn DBQueryContext :=
  match body with
  | .binary _ _ _ => do
      let text ← whereText body
      pure { context with where_ := text }
  -- Any other body leaves the context as it was.
  | _ => pure context

/-- The first line of a query. -/
def selectLine (T : Entity) (context : DBQueryContext) : List Char :=
  if context.selectField.length > 0 then
    "SELECT ".toList ++ [','].intercalate context.selectField ++ " FROM ".toList ++ T.name
  else "SELECT * FROM ".toList ++ T.name

/-- `BuildQuery()`. -/
def buildQuery (T : Entity) (newLine : List Char) (context : DBQueryContext) : List Char :=
  let sb := context.selectLine T ++ newLine
  if context.where_ ≠ [] then
    sb ++ "WHERE 1=1 AND ".toList ++ context.where_ ++ [' '] ++ newLine
  else sb

end DBQueryContext

end DynamicORMSample

end BlogSample
