import BlogSample.PolandNotation.Tokens

/-!
# Evaluation by Suffix Expression

`Solution.EvalRPN` reads a formula in three passes: tokens, suffix
expression, value. The middle pass keeps the operators that wait for their
right operand on `operStack`; `foldlM_suffixStep` says what it has done when
it has read a formula: what the tree's suffix form has so far is in the
result, and the rest is pending on the stack, with priorities that any later
operator at that place takes off again.

The arithmetic of `decimal` is a parameter. Every operation may throw, as it
does on overflow, and a division by zero throws a `DivideByZeroException`.

## Main definitions

* `Decimal`: Arithmetic with exceptions.
* `hasDigit`: The test for a literal, by a regular expression.
* `suffixStep`, `toSuffixExpression`: The second pass.
* `evalStep`, `evalRPN`: The third pass, and all of them.
* `Oper`: The operators.
* `Renders`: The texts of a tree.
* `DividesByZero`: The evaluation of a tree comes to a division by zero.

## Theorems

* `foldlM_suffixStep`: The second pass on a formula.
* `toSuffixExpression_symbols`: Its result is the suffix form of the tree.
* `foldlM_evalStep`: The third pass computes the value.
* `evalRPN_spec`: All three passes.
-/

namespace BlogSample

namespace PolandNotation

open DotNet

/-- Arithmetic on `decimal`: literals, the four operations, and zero, by
    which no number can be divided. -/
structure Decimal (D : Type) where
  ofNat : Nat → Except Exn D
  add : D → D → Except Exn D
  sub : D → D → Except Exn D
  mul : D → D → Except Exn D
  div : D → D → Except Exn D
  zero : D
  div_zero : ∀ a, div a zero = .error .divideByZero

/-- Exact arithmetic. -/
def Decimal.exact : Decimal Rat where
  ofNat := fun n => .ok n
  add := fun a b => .ok (a + b)
  sub := fun a b => .ok (a - b)
  mul := fun a b => .ok (a * b)
  div := fun a b => if b = 0 then .error .divideByZero else .ok (a / b)
  zero := 0
  div_zero := fun _ => rfl

namespace Solution

/-- The digit zero of every script that has decimal digits, in the Basic
    Multilingual Plane. The digits one to nine come right after it. -/
def decimalZeros : List Nat :=
  [0x30, 0x660, 0x6f0, 0x7c0, 0x966, 0x9e6, 0xa66, 0xae6, 0xb66, 0xbe6, 0xc66, 0xce6, 0xd66,
    0xde6, 0xe50, 0xed0, 0xf20, 0x1040, 0x1090, 0x17e0, 0x1810, 0x1946, 0x19d0, 0x1a80, 0x1a90,
    0x1b50, 0x1bb0, 0x1c40, 0x1c50, 0xa620, 0xa8d0, 0xa900, 0xa9d0, 0xa9f0, 0xaa50, 0xabf0, 0xff10]

/-- `Regex.IsMatch(item, "\\d")`. The class `\d` has the decimal digits of
    all scripts. -/
def hasDigit (item : Text) : Bool :=
  item.any (fun c => decimalZeros.any (fun z => z ≤ c.toNat && c.toNat ≤ z + 9))

/-- `OperPriority(oper)`. -/
def operPriority (oper : Text) : Int :=
  if oper = ['*'] ∨ oper = ['/'] then 2
  else if oper = ['+'] ∨ oper = ['-'] then 1
  else -1

/-- The loop that pops down to an open parenthesis. `Peek` throws on an empty
    stack. -/
def popToParen : List Text → List Text → Except Exn (List Text × List Text)
  | _, [] => throw .invalidOperation
  | result, top :: operStack =>
      if top ≠ ['('] then popToParen (result ++ [top]) operStack
      else pure (result, top :: operStack)

/-- The loop that pops the operators an item does not bind more than. -/
def popOperators (item : Text) : List Text → List Text → List Text × List Text
  | result, [] => (result, [])
  | result, top :: operStack =>
      if operPriority item ≤ operPriority top then popOperators item (result ++ [top]) operStack
      else (result, top :: operStack)

/-- One round of the loop over the tokens, on the result and the stack. -/
def suffixStep (s : List Text × List Text) (item : Text) : Except Exn (List Text × List Text) :=
  if hasDigit item then pure (s.1 ++ [item], s.2)
  else if s.2 = [] ∨ item = ['('] then pure (s.1, item :: s.2)
  else if item = [')'] then do
    let s ← popToParen s.1 s.2
    pure (s.1, s.2.tail)
  else
    let s := popOperators item s.1 s.2
    pure (s.1, item :: s.2)

/-- `ToSuffixExpression(tokens)`. The last loop pops the whole stack. -/
def toSuffixExpression (tokens : List Text) : Except Exn (List Text) := do
  let s ← tokens.foldlM suffixStep ([], [])
  pure (s.1 ++ s.2)

section Evaluation

variable {D : Type} (A : Decimal D)

/-- `decimal.Parse(item)`, for the tokens there are: digits, or a character
    that is not one of them. -/
def parse (item : Text) : Except Exn D :=
  if item ≠ [] ∧ item.all isNumber = true then A.ofNat (Nat.ofDigitChars 10 item 0)
  else throw .format

/-- `CalcByOper(oper, n1, n2)`. -/
def calcByOper (oper : Text) (n1 n2 : D) : Except Exn D :=
  if oper = ['+'] then A.add n2 n1
  else if oper = ['-'] then A.sub n2 n1
  else if oper = ['*'] then A.mul n2 n1
  else if oper = ['/'] then A.div n2 n1
  else throw .exception

/-- One round of the loop over the suffix expression. -/
def evalStep (numStack : List D) (item : Text) : Except Exn (List D) :=
  if hasDigit item then do
    let n ← parse A item
    pure (n :: numStack)
  else
    match numStack with
    | n1 :: n2 :: numStack => do
        let n ← calcByOper A item n1 n2
        pure (n :: numStack)
    | _ => throw .invalidOperation

/-- `EvalRPN(formula)`. -/
def evalRPN (formula : Text) : Except Exn D := do
  let tokens ← toExpressionList formula
  let suffixExpression ← toSuffixExpression tokens
  let numStack ← suffixExpression.foldlM (evalStep A) []
  match numStack with
  | n :: _ => pure n
  | [] => throw .invalidOperation

end Evaluation

/-- The operators. -/
inductive Oper where
  | add
  | sub
  | mul
  | div
  deriving DecidableEq

namespace Oper

/-- How an operator is written. -/
def char : Oper → Char
  | add => '+'
  | sub => '-'
  | mul => '*'
  | div => '/'

/-- Products and quotients bind more than sums and differences. -/
def priority : Oper → Nat
  | add => 1
  | sub => 1
  | mul => 2
  | div => 2

/-- What an operator does. -/
def apply {D : Type} (A : Decimal D) : Oper → D → D → Except Exn D
  | add => A.add
  | sub => A.sub
  | mul => A.mul
  | div => A.div

theorem isNumber_char (o : Oper) : isNumber o.char = false := by
  cases o <;> rfl

theorem char_ne_space (o : Oper) : o.char ≠ ' ' := by
  cases o <;> decide

theorem operPriority_char (o : Oper) : operPriority [o.char] = o.priority := by
  cases o <;> rfl

theorem hasDigit_char (o : Oper) : hasDigit [o.char] = false := by
  cases o <;> decide

theorem calcByOper_char {D : Type} (A : Decimal D) (o : Oper) (n1 n2 : D) :
    calcByOper A [o.char] n1 n2 = o.apply A n2 n1 := by
  cases o <;> rfl

end Oper

/-- The texts of a tree: those of its formulas with enough parentheses. -/
def Renders (e : Expr Nat Oper) (s : Text) : Prop :=
  ∃ f : Formula Literal Oper, f.Respects Oper.priority ∧ f.expr.map Literal.value = e ∧
    Prints Oper.char f s

section Value

variable {D : Type} (A : Decimal D)

/-- The value of a tree. -/
def value (e : Expr Nat Oper) : Except Exn D :=
  e.eval A.ofNat (Oper.apply A)

/-- The evaluation of a tree comes to a division by zero, before anything
    else is thrown. -/
def DividesByZero : Expr Nat Oper → Prop
  | .num _ => False
  | .app o l r =>
      DividesByZero l ∨ (∃ a, value A l = .ok a) ∧ DividesByZero r ∨
        o = .div ∧ (∃ a, value A l = .ok a) ∧ value A r = .ok A.zero

theorem value_app (o : Oper) (l r : Expr Nat Oper) :
    value A (.app o l r) = (do
      let a ← value A l
      let b ← value A r
      o.apply A a b) := rfl

/-- Then it throws a `DivideByZeroException`. -/
theorem value_of_dividesByZero {e : Expr Nat Oper} (h : DividesByZero A e) :
    value A e = .error .divideByZero := by
  induction e with
  | num n => exact absurd h id
  | app o l r ihl ihr =>
      rw [value_app]
      rcases h with h | ⟨⟨a, ha⟩, h⟩ | ⟨ho, ⟨a, ha⟩, hb⟩
      · rw [ihl h]
        rfl
      · rw [ha, ihr h]
        rfl
      · rw [ha, hb, ho]
        exact A.div_zero a

end Value

/-! ### The second pass -/

theorem hasDigit_digits {item : Text} (hne : item ≠ []) (h : ∀ c ∈ item, isNumber c = true) :
    hasDigit item = true := by
  cases item with
  | nil => exact absurd rfl hne
  | cons c rest =>
      have hc := h c List.mem_cons_self
      unfold isNumber at hc
      rw [Bool.and_eq_true, decide_eq_true_eq, decide_eq_true_eq] at hc
      refine List.any_eq_true.mpr ⟨c, List.mem_cons_self, ?_⟩
      refine List.any_eq_true.mpr ⟨0x30, List.mem_cons_self, ?_⟩
      rw [Bool.and_eq_true, decide_eq_true_eq, decide_eq_true_eq]
      exact ⟨hc.1, hc.2⟩

/-- Operators that bind no less than the item come off the stack. -/
theorem popOperators_append {item : Text} (pend : List Text) {stack : List Text}
    (hpend : ∀ t ∈ pend, operPriority item ≤ operPriority t)
    (hstack : ∀ t ∈ stack.head?, operPriority t < operPriority item) (result : List Text) :
    popOperators item result (pend ++ stack) = (result ++ pend, stack) := by
  induction pend generalizing result with
  | nil =>
      rw [List.nil_append, List.append_nil]
      cases stack with
      | nil => rfl
      | cons t stack =>
          rw [popOperators, if_neg (Int.not_le.mpr (hstack t rfl))]
  | cons t pend ih =>
      rw [List.cons_append, popOperators, if_pos (hpend t List.mem_cons_self),
        ih (fun u hu => hpend u (List.mem_cons_of_mem t hu)), List.append_assoc]
      rfl

/-- So does everything above an open parenthesis. -/
theorem popToParen_append (pend : List Text) (hpend : ∀ t ∈ pend, t ≠ ['(']) (stack : List Text)
    (result : List Text) :
    popToParen result (pend ++ ['('] :: stack) = .ok (result ++ pend, ['('] :: stack) := by
  induction pend generalizing result with
  | nil =>
      rw [List.nil_append, List.append_nil, popToParen, if_neg (fun h => h rfl)]
      rfl
  | cons t pend ih =>
      rw [List.cons_append, popToParen, if_pos (hpend t List.mem_cons_self),
        ih (fun u hu => hpend u (List.mem_cons_of_mem t hu)), List.append_assoc]
      rfl

theorem suffixStep_num (n : Literal) (result stack : List Text) :
    suffixStep (result, stack) n.digits = .ok (result ++ [n.digits], stack) := by
  unfold suffixStep
  rw [if_pos (hasDigit_digits n.ne n.all)]
  rfl

theorem suffixStep_lparen (result stack : List Text) :
    suffixStep (result, stack) ['('] = .ok (result, ['('] :: stack) := by
  unfold suffixStep
  rw [if_neg (by decide), if_pos (Or.inr rfl)]
  rfl

theorem suffixStep_rparen (result pend stack : List Text) (hpend : ∀ t ∈ pend, t ≠ ['(']) :
    suffixStep (result, pend ++ ['('] :: stack) [')'] = .ok (result ++ pend, stack) := by
  unfold suffixStep
  rw [if_neg (by decide), if_neg ?_, if_pos rfl, popToParen_append pend hpend]
  · rfl
  · intro h
    rcases h with h | h
    · exact absurd (List.append_eq_nil_iff.mp h).2 (List.cons_ne_nil _ _)
    · exact absurd h (by decide)

/-- An operator takes what is pending with at least its priority off the
    stack and goes on top of it. -/
theorem suffixStep_oper (o : Oper) (result pend stack : List Text)
    (hpend : ∀ t ∈ pend, (o.priority : Int) ≤ operPriority t)
    (hstack : ∀ t ∈ stack.head?, operPriority t < o.priority) :
    suffixStep (result, pend ++ stack) [o.char] = .ok (result ++ pend, [o.char] :: stack) := by
  have hparen : [o.char] ≠ ['('] ∧ [o.char] ≠ [')'] := by
    cases o <;> decide
  unfold suffixStep
  rw [if_neg (by rw [Oper.hasDigit_char]; exact Bool.false_ne_true)]
  by_cases hempty : pend ++ stack = []
  -- An empty stack takes the operator at once.
  · rw [if_pos (Or.inl hempty)]
    rcases List.append_eq_nil_iff.mp hempty with ⟨hp, hs⟩
    rw [hp, hs, List.append_nil, List.append_nil]
    rfl
  · rw [if_neg (not_or.mpr ⟨hempty, hparen.1⟩), if_neg hparen.2, popOperators_append pend]
    · rfl
    · intro t ht
      rw [Oper.operPriority_char]
      exact hpend t ht
    · intro t ht
      rw [Oper.operPriority_char]
      exact hstack t ht

/-- The second pass on a formula, on a stack whose top binds less than the
    formula does: the result and what is pending are together the suffix form
    of the tree. -/
theorem foldlM_suffixStep (f : Formula Literal Oper) : ∀ (p : Nat) (result stack : List Text),
    f.Respects Oper.priority → f.Binds Oper.priority p →
    (∀ t ∈ stack.head?, operPriority t < p) →
    ∃ out pend, (f.symbols.map (text Oper.char)).foldlM suffixStep (result, stack)
        = .ok (result ++ out, pend ++ stack) ∧
      out ++ pend = f.expr.suffix.map (text Oper.char) ∧
      ∀ t ∈ pend, (p : Int) ≤ operPriority t := by
  induction f with
  | num n =>
      intro p result stack _ _ _
      refine ⟨[n.digits], [], ?_, rfl, fun t ht => absurd ht List.not_mem_nil⟩
      exact foldlM_cons_ok (suffixStep_num n result stack) []
  | paren f ih =>
      intro p result stack hresp _ _
      rcases ih 0 result (['('] :: stack) hresp (Formula.Binds.zero _ f)
        (fun t ht => by rw [← Option.some.inj ht]; decide) with ⟨out, pend, hrun, hsuffix, hpend⟩
      have hopen : ∀ t ∈ pend, t ≠ ['('] := by
        intro t ht heq
        have := hpend t ht
        rw [heq] at this
        exact absurd this (by decide)
      -- The closing parenthesis moves everything that is pending inside.
      refine ⟨out ++ pend, [], ?_, ?_, fun t ht => absurd ht List.not_mem_nil⟩
      · have hclose := suffixStep_rparen (result ++ out) pend stack hopen
        rw [Formula.symbols, List.map_append, List.map_cons, List.cons_append, text_lparen,
          foldlM_cons_ok (suffixStep_lparen result stack), foldlM_append_ok hrun,
          ← List.append_assoc]
        exact foldlM_cons_ok hclose []
      · rw [List.append_nil]
        exact hsuffix
  | app o l r ihl ihr =>
      intro p result stack hresp hbinds hstack
      rcases hresp with ⟨hl, hr, hbl, hbr⟩
      have hp : p ≤ o.priority := hbinds
      have hlow : ∀ t ∈ stack.head?, operPriority t < o.priority := by
        intro t ht
        have := hstack t ht
        omega
      rcases ihl o.priority result stack hl hbl hlow with ⟨out₁, pend₁, hrun₁, hsuffix₁, hpend₁⟩
      -- The operator moves what is pending of its left operand, and waits below
      -- the right one.
      have htop : ∀ t ∈ ([o.char] :: stack).head?, operPriority t < (o.priority + 1 : Nat) := by
        intro t ht
        rw [← Option.some.inj ht, Oper.operPriority_char]
        omega
      rcases ihr (o.priority + 1) (result ++ out₁ ++ pend₁) ([o.char] :: stack) hr hbr htop with
        ⟨out₂, pend₂, hrun₂, hsuffix₂, hpend₂⟩
      refine ⟨out₁ ++ pend₁ ++ out₂, pend₂ ++ [[o.char]], ?_, ?_, ?_⟩
      · have hoper := suffixStep_oper o (result ++ out₁) pend₁ stack hpend₁ hlow
        rw [Formula.symbols, List.map_append, List.map_cons, foldlM_append_ok hrun₁,
          text_oper, foldlM_cons_ok hoper, hrun₂]
        simp only [List.append_assoc, List.cons_append, List.nil_append]
      · change _ = (l.expr.suffix ++ r.expr.suffix ++ [Symbol.oper o]).map (text Oper.char)
        rw [List.map_append, List.map_append, ← hsuffix₁, ← hsuffix₂]
        simp only [List.append_assoc]
        rfl
      · intro t ht
        rcases List.mem_append.mp ht with ht | ht
        · have := hpend₂ t ht
          omega
        · rw [List.mem_singleton.mp ht, Oper.operPriority_char]
          omega

/-- The suffix expression of a formula is the suffix form of its tree. -/
theorem toSuffixExpression_symbols {f : Formula Literal Oper} (h : f.Respects Oper.priority) :
    toSuffixExpression (f.symbols.map (text Oper.char)) =
      .ok (f.expr.suffix.map (text Oper.char)) := by
  rcases foldlM_suffixStep f 0 [] [] h (Formula.Binds.zero _ f)
    (fun t ht => by cases ht) with ⟨out, pend, hrun, hsuffix, -⟩
  unfold toSuffixExpression
  rw [hrun, ← hsuffix]
  change Except.ok (out ++ (pend ++ [])) = _
  rw [List.append_nil]

/-! ### The third pass -/

theorem parse_digits {D : Type} (A : Decimal D) (n : Literal) :
    parse A n.digits = A.ofNat n.value := by
  unfold parse
  rw [if_pos ⟨n.ne, List.all_eq_true.mpr n.all⟩]
  rfl

/-- The third pass computes the value of the tree. -/
theorem foldlM_evalStep {D : Type} (A : Decimal D) (e : Expr Literal Oper) (numStack : List D) :
    (e.suffix.map (text Oper.char)).foldlM (evalStep A) numStack
      = (value A (e.map Literal.value)).map (· :: numStack) := by
  rw [value, Expr.eval_map, List.foldlM_map]
  refine Expr.foldlM_suffix ?_ ?_ e numStack
  · intro n s
    unfold evalStep
    rw [text_num, if_pos (hasDigit_digits n.ne n.all), parse_digits]
    cases A.ofNat n.value with
    | error err => rfl
    | ok a => rfl
  · intro o a b s
    unfold evalStep
    rw [text_oper, if_neg (by rw [Oper.hasDigit_char]; exact Bool.false_ne_true)]
    change (do let n ← calcByOper A [o.char] b a; pure (n :: s)) = _
    rw [Oper.calcByOper_char]
    cases o.apply A a b with
    | error err => rfl
    | ok c => rfl

/-- `EvalRPN` of a text of a tree has the value of the tree, and throws a
    `DivideByZeroException` when the evaluation of the tree divides by zero. -/
theorem evalRPN_spec {D : Type} (A : Decimal D) (e : Expr Nat Oper) (s : Text)
    (h : Renders e s) :
    evalRPN A s = value A e ∧ (DividesByZero A e → evalRPN A s = .error .divideByZero) := by
  rcases h with ⟨f, hresp, htree, hprints⟩
  have hvalue : evalRPN A s = value A e := by
    unfold evalRPN
    rw [toExpressionList_prints Oper.isNumber_char Oper.char_ne_space hprints]
    change (do let suffixExpression ← toSuffixExpression (f.symbols.map (text Oper.char)); _) = _
    rw [toSuffixExpression_symbols hresp]
    change (do let numStack ← (f.expr.suffix.map (text Oper.char)).foldlM (evalStep A) []; _) = _
    rw [foldlM_evalStep, htree]
    cases value A e with
    | error err => rfl
    | ok a => rfl
  exact ⟨hvalue, fun hzero => hvalue.trans (value_of_dividesByZero A hzero)⟩

/-- A quotient of a sum in parentheses, with spaces and a superfluous zero. -/
theorem evalRPN_spec_quotient :
    evalRPN Decimal.exact "(1 + 2)/ 00".toList = .error .divideByZero := by
  have hspaced : Spaced [['('], ['1'], ['+'], ['2'], [')'], ['/'], ['0', '0']]
      "(1 + 2)/ 00".toList :=
    .cons 0 _ _ _ (.cons 0 _ _ _ (.cons 1 _ _ _ (.cons 1 _ _ _ (.cons 0 _ _ _
      (.cons 0 _ _ _ (.cons 1 _ _ _ (.nil 0)))))))
  have hrenders : Renders (.app .div (.app .add (.num 1) (.num 2)) (.num 0))
      "(1 + 2)/ 00".toList :=
    ⟨.app .div
        (.paren (.app .add (.num ⟨['1'], List.cons_ne_nil _ _, List.all_eq_true.mp rfl⟩)
          (.num ⟨['2'], List.cons_ne_nil _ _, List.all_eq_true.mp rfl⟩)))
        (.num ⟨['0', '0'], List.cons_ne_nil _ _, List.all_eq_true.mp rfl⟩),
      ⟨⟨trivial, trivial, trivial, trivial⟩, trivial, trivial, trivial⟩, rfl, hspaced⟩
  refine (evalRPN_spec Decimal.exact _ _ hrenders).2 ?_
  exact Or.inr (Or.inr ⟨rfl, ⟨_, rfl⟩, rfl⟩)

end Solution

end PolandNotation

end BlogSample
