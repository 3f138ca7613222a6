import Mathlib.Data.List.Basic

/-!
# Infix Formulas

Formulas with binary operators, as trees, as texts with parentheses and as
lists of symbols, over any numerals and any operators.

A `Formula` keeps the parentheses it was written with, so a tree has many:
`Respects` says that the ones it needs are there when every operator has a
priority and equal priorities associate to the left. The suffix form of a
tree lists each operator after its operands; a machine that pushes numerals
and lets an operator take two entries off its stack computes the value of the
tree, whatever else the machine is, which is `foldlM_suffix`.

The last part is about symbol lists that nobody promised to be formulas.
`Accepts` reads a list as an alternation of operands and operators, and
`derivable_of_accepts` says that this and matching parentheses are all there
is to a formula.

## Main definitions

* `Symbol`, `Expr`, `Formula`: Symbols, trees, and trees with parentheses.
* `Formula.Respects`: Priorities and left associativity.
* `Formula.shape`: A formula without its numerals.
* `Expr.eval`: The value of a tree, in a monad of exceptions.
* `Expr.suffix`: Operators after their operands.
* `Derivable`: The ambiguous grammar of formulas.
* `Accepts`: Operands and operators alternate.
* `depth`: The number of open parentheses.
* `Apart`: No operand directly after another one.

## Theorems

* `foldlM_suffix`: A stack machine computes the value from the suffix form.
* `accepts_symbols`: Formulas alternate.
* `accepts_of_count`: Operands apart, and more numerals than operators.
* `derivable_of_accepts`: An alternation with matching parentheses.
-/

namespace BlogSample

universe u v w x

/-- The symbols of a formula. -/
inductive Symbol (ν : Type u) (ω : Type v) where
  | num (n : ν)
  | oper (o : ω)
  | lparen
  | rparen
  deriving DecidableEq

/-- Trees of binary operators. -/
inductive Expr (ν : Type u) (ω : Type v) where
  | num (n : ν)
  | app (o : ω) (left right : Expr ν ω)
  deriving DecidableEq

/-- Trees with the parentheses they are written with. -/
inductive Formula (ν : Type u) (ω : Type v) where
  | num (n : ν)
  | paren (f : Formula ν ω)
  | app (o : ω) (left right : Formula ν ω)
  deriving DecidableEq

namespace Expr

variable {ν : Type u} {ω : Type v} {ε : Type w} {δ : Type w}

/-- The value of a tree, the left operand first. -/
def eval (num : ν → Except ε δ) (oper : ω → δ → δ → Except ε δ) : Expr ν ω → Except ε δ
  | .num n => num n
  | .app o l r => do
      let a ← eval num oper l
      let b ← eval num oper r
      oper o a b

/-- Operators after their operands. -/
def suffix : Expr ν ω → List (Symbol ν ω)
  | .num n => [.num n]
  | .app o l r => l.suffix ++ r.suffix ++ [.oper o]

/-- Change the numerals of a tree. -/
def map {μ : Type x} (g : ν → μ) : Expr ν ω → Expr μ ω
  | .num n => .num (g n)
  | .app o l r => .app o (l.map g) (r.map g)

theorem eval_map {μ : Type x} (g : ν → μ) (num : μ → Except ε δ)
    (oper : ω → δ → δ → Except ε δ) (e : Expr ν ω) :
    (e.map g).eval num oper = e.eval (fun n => num (g n)) oper := by
  induction e with
  | num n => rfl
  | app o l r ihl ihr =>
      unfold map eval
      rw [ihl, ihr]

/-- A machine that pushes numerals, and lets an operator replace the two
    topmost entries, computes the value from the suffix form. -/
theorem foldlM_suffix {num : ν → Except ε δ} {oper : ω → δ → δ → Except ε δ}
    {step : List δ → Symbol ν ω → Except ε (List δ)}
    (hnum : ∀ n s, step s (.num n) = (num n).map (· :: s))
    (hoper : ∀ o a b s, step (b :: a :: s) (.oper o) = (oper o a b).map (· :: s))
    (e : Expr ν ω) (s : List δ) :
    e.suffix.foldlM step s = (e.eval num oper).map (· :: s) := by
  induction e generalizing s with
  | num n =>
      unfold suffix eval
      rw [List.foldlM_cons, hnum]
      cases num n with
      | error err => rfl
      | ok a => rfl
  | app o l r ihl ihr =>
      unfold suffix eval
      -- The left operand, then the right one, then the operator on top of both.
      rw [List.foldlM_append, List.foldlM_append, ihl]
      cases l.eval num oper with
      | error err => rfl
      | ok a =>
          change (do let t ← List.foldlM step (a :: s) r.suffix
                     List.foldlM step t [.oper o]) = _
          rw [ihr]
          cases r.eval num oper with
          | error err => rfl
          | ok b =>
              change List.foldlM step (b :: a :: s) [.oper o] = _
              rw [List.foldlM_cons, hoper]
              change _ = (oper o a b).map (· :: s)
              cases oper o a b with
              | error err => rfl
              | ok c => rfl

end Expr

namespace Formula

variable {ν : Type u} {ω : Type v}

/-- The tree, without the parentheses. -/
def expr : Formula ν ω → Expr ν ω
  | .num n => .num n
  | .paren f => f.expr
  | .app o l r => .app o l.expr r.expr

/-- The symbols, from left to right. -/
def symbols : Formula ν ω → List (Symbol ν ω)
  | .num n => [.num n]
  | .paren f => .lparen :: f.symbols ++ [.rparen]
  | .app o l r => l.symbols ++ .oper o :: r.symbols

/-- An operator outside of all parentheses has at least this priority. -/
def Binds (prio : ω → Nat) (p : Nat) : Formula ν ω → Prop
  | .num _ => True
  | .paren _ => True
  | .app o _ _ => p ≤ prio o

/-- The parentheses that the priorities and left associativity call for are
    there. -/
def Respects (prio : ω → Nat) : Formula ν ω → Prop
  | .num _ => True
  | .paren f => f.Respects prio
  | .app o l r =>
      l.Respects prio ∧ r.Respects prio ∧ l.Binds prio (prio o) ∧ r.Binds prio (prio o + 1)

/-- Change the numerals of a formula. -/
def map {μ : Type w} (g : ν → μ) : Formula ν ω → Formula μ ω
  | .num n => .num (g n)
  | .paren f => .paren (f.map g)
  | .app o l r => .app o (l.map g) (r.map g)

/-- The formula without its numerals. -/
def shape (f : Formula ν ω) : Formula Unit ω :=
  f.map (fun _ => ())

theorem binds_map {μ : Type w} (g : ν → μ) (prio : ω → Nat) (p : Nat) (f : Formula ν ω) :
    (f.map g).Binds prio p ↔ f.Binds prio p := by
  cases f with
  | num n => exact Iff.rfl
  | paren f => exact Iff.rfl
  | app o l r => exact Iff.rfl

theorem respects_map {μ : Type w} (g : ν → μ) (prio : ω → Nat) (f : Formula ν ω) :
    (f.map g).Respects prio ↔ f.Respects prio := by
  induction f with
  | num n => exact Iff.rfl
  | paren f ih => exact ih
  | app o l r ihl ihr =>
      unfold map Respects
      rw [ihl, ihr, binds_map, binds_map]

theorem Binds.zero (prio : ω → Nat) (f : Formula ν ω) : f.Binds prio 0 := by
  cases f with
  | num n => exact trivial
  | paren f => exact trivial
  | app o l r => exact Nat.zero_le _

theorem Binds.mono {prio : ω → Nat} {p q : Nat} {f : Formula ν ω} (h : f.Binds prio q)
    (hpq : p ≤ q) : f.Binds prio p := by
  cases f with
  | num n => exact trivial
  | paren f => exact trivial
  | app o l r => exact Nat.le_trans hpq h

end Formula

section Grammar

variable {ν : Type u} {ω : Type v}

/-- A numeral, a formula in parentheses, or two formulas with an operator
    between them. -/
inductive Derivable : List (Symbol ν ω) → Prop
  | num (n : ν) : Derivable [.num n]
  | paren (s : List (Symbol ν ω)) : Derivable s → Derivable (.lparen :: s ++ [.rparen])
  | app (s : List (Symbol ν ω)) (o : ω) (t : List (Symbol ν ω)) :
      Derivable s → Derivable t → Derivable (s ++ .oper o :: t)

/-- Operands and operators alternate. The flag says that an operand is to
    come next. -/
def Accepts : Bool → List (Symbol ν ω) → Prop
  | true, [] => False
  | true, .num _ :: s => Accepts false s
  | true, .lparen :: s => Accepts true s
  | true, .oper _ :: _ => False
  | true, .rparen :: _ => False
  | false, [] => True
  | false, .oper _ :: s => Accepts true s
  | false, .rparen :: s => Accepts false s
  | false, .num _ :: _ => False
  | false, .lparen :: _ => False

/-- The number of parentheses that are open after a list, if none is closed
    that is not open. -/
def depth : Nat → List (Symbol ν ω) → Option Nat
  | d, [] => some d
  | d, .num _ :: s => depth d s
  | d, .oper _ :: s => depth d s
  | d, .lparen :: s => depth (d + 1) s
  | 0, .rparen :: _ => none
  | d + 1, .rparen :: s => depth d s

/-- No numeral and no open parenthesis comes directly after a numeral or a
    closed one. The flag says that the list itself comes after one. -/
def Apart : Bool → List (Symbol ν ω) → Prop
  | _, [] => True
  | true, .num _ :: _ => False
  | true, .lparen :: _ => False
  | false, .num _ :: s => Apart true s
  | false, .lparen :: s => Apart false s
  | _, .oper _ :: s => Apart false s
  | _, .rparen :: s => Apart true s

/-- The number of numerals in a list. -/
def numCount : List (Symbol ν ω) → Nat
  | [] => 0
  | .num _ :: s => numCount s + 1
  | _ :: s => numCount s

/-- The number of operators in a list. -/
def operCount : List (Symbol ν ω) → Nat
  | [] => 0
  | .oper _ :: s => operCount s + 1
  | _ :: s => operCount s

/-- After a formula an operator is to come. -/
theorem accepts_symbols (f : Formula ν ω) (s : List (Symbol ν ω)) :
    Accepts true (f.symbols ++ s) ↔ Accepts false s := by
  induction f generalizing s with
  | num n => exact Iff.rfl
  | paren f ih =>
      unfold Formula.symbols
      rw [List.append_assoc, List.cons_append]
      exact ih ([.rparen] ++ s)
  | app o l r ihl ihr =>
      unfold Formula.symbols
      rw [List.append_assoc, ihl]
      exact ihr s

/-- With operands apart there is at most one numeral more than there are
    operators, and when there is one more, operands and operators alternate. -/
theorem accepts_of_count (s : List (Symbol ν ω)) :
    (Apart false s → numCount s ≤ operCount s + 1 ∧
      (numCount s = operCount s + 1 → Accepts true s)) ∧
    (Apart true s → numCount s ≤ operCount s ∧ (numCount s = operCount s → Accepts false s)) := by
  induction s with
  | nil =>
      refine ⟨fun _ => ⟨Nat.zero_le _, fun h => ?_⟩, fun _ => ⟨Nat.le_refl 0, fun _ => trivial⟩⟩
      exact absurd h (Nat.succ_ne_zero 0).symm
  | cons a s ih =>
      cases a with
      | num n =>
          refine ⟨fun h => ?_, fun h => absurd h id⟩
          rcases ih.2 h with ⟨hle, hacc⟩
          exact ⟨Nat.succ_le_succ hle, fun heq => hacc (Nat.succ.inj heq)⟩
      | lparen =>
          exact ⟨fun h => ih.1 h, fun h => absurd h id⟩
      | oper o =>
          -- An operator where an operand was to come leaves one numeral too few.
          constructor
          · intro h
            have hle := (ih.1 h).1
            refine ⟨Nat.le_succ_of_le hle, fun heq => ?_⟩
            have : numCount s = operCount s + 1 + 1 := heq
            omega
          · intro h
            exact ih.1 h
      | rparen =>
          -- So does a closed parenthesis there.
          constructor
          · intro h
            have hle := (ih.2 h).1
            refine ⟨Nat.le_succ_of_le hle, fun heq => ?_⟩
            have : numCount s = operCount s + 1 := heq
            omega
          · intro h
            exact ih.2 h

/-- What stands before an operand, by the parentheses that are open, the
    innermost first. -/
def opened : List (List (Symbol ν ω)) → List (Symbol ν ω)
  | [] => []
  | [p] => p
  | p :: q :: ps => opened (q :: ps) ++ .lparen :: p

/-- Whatever formula comes next, there is a formula so far. -/
def Awaits (p : List (Symbol ν ω)) : Prop :=
  ∀ s, Derivable s → Derivable (p ++ s)

/-- An alternation in which every parenthesis is closed completes what is
    open to a formula. -/
theorem derivable_of_accepts_aux (s : List (Symbol ν ω)) :
    (∀ p ps, (∀ q ∈ p :: ps, Awaits q) → Accepts true s → depth ps.length s = some 0 →
      Derivable (opened (p :: ps) ++ s)) ∧
    (∀ p ps t, (∀ q ∈ p :: ps, Awaits q) → Derivable t → Accepts false s →
      depth ps.length s = some 0 → Derivable (opened (p :: ps) ++ (t ++ s))) := by
  induction s with
  | nil =>
      refine ⟨fun p ps _ h _ => absurd h id, fun p ps t hps ht _ hd => ?_⟩
      cases ps with
      | nil =>
          rw [List.append_nil]
          exact hps p List.mem_cons_self t ht
      | cons q ps => cases hd
  | cons a s ih =>
      cases a with
      | num n =>
          refine ⟨fun p ps hps h hd => ?_, fun p ps t _ _ h _ => absurd h id⟩
          exact ih.2 p ps [.num n] hps (.num n) h hd
      | lparen =>
          refine ⟨fun p ps hps h hd => ?_, fun p ps t _ _ h _ => absurd h id⟩
          have hnil : ∀ q ∈ [] :: p :: ps, Awaits q := by
            intro q hq
            rcases List.mem_cons.mp hq with hq | hq
            · rw [hq]
              exact fun t ht => ht
            · exact hps q hq
          have hrest := ih.1 [] (p :: ps) hnil h hd
          rw [opened, List.append_assoc] at hrest
          exact hrest
      | oper o =>
          refine ⟨fun p ps _ h _ => absurd h id, fun p ps t hps ht h hd => ?_⟩
          -- What comes next is the right operand.
          have hawaits : ∀ q ∈ (p ++ (t ++ [.oper o])) :: ps, Awaits q := by
            intro q hq
            rcases List.mem_cons.mp hq with hq | hq
            · rw [hq]
              intro r hr
              have happ := hps p List.mem_cons_self _ (.app t o r ht hr)
              rw [List.append_assoc, List.append_assoc]
              exact happ
            · exact hps q (List.mem_cons_of_mem p hq)
          have hrest := ih.1 _ ps hawaits h hd
          cases ps with
          | nil =>
              simp only [opened, List.append_assoc, List.cons_append, List.nil_append] at hrest ⊢
              exact hrest
          | cons q ps =>
              simp only [opened, List.append_assoc, List.cons_append, List.nil_append] at hrest ⊢
              exact hrest
      | rparen =>
          refine ⟨fun p ps _ h _ => absurd h id, fun p ps t hps ht h hd => ?_⟩
          cases ps with
          | nil => cases hd
          | cons q ps =>
              -- The innermost parentheses hold a formula now.
              have hinner : Derivable (.lparen :: (p ++ t) ++ [.rparen]) :=
                .paren _ (hps p List.mem_cons_self t ht)
              have hrest := ih.2 q ps _ (fun r hr => hps r (List.mem_cons_of_mem p hr)) hinner h hd
              rw [opened]
              simp only [List.append_assoc, List.cons_append, List.nil_append] at hrest ⊢
              exact hrest

/-- An alternation of operands and operators with matching parentheses is a
    formula. -/
theorem derivable_of_accepts {s : List (Symbol ν ω)} (h : Accepts true s)
    (hd : depth 0 s = some 0) : Derivable s := by
  refine (derivable_of_accepts_aux s).1 [] [] ?_ h hd
  intro q hq
  rw [List.mem_singleton.mp hq]
  exact fun t ht => ht

end Grammar

end BlogSample
