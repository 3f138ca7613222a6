import BlogSample.Int32
import BlogSample.PolandNotation.Tokens

/-!
# Evaluation on Two Stacks

`Calculator.Calc` evaluates while it reads. The stacks are fields of the
object, and a call that throws leaves them as they are at that moment, so a
method maps the object to a result or an exception together with the object
it leaves behind.

`spine` is the value-level account of the stacks. After a formula the number
stack holds the values of a spine of operands and the operator stack the
operators between them, to be applied from the right. The calculator takes
only one operator off the stack when the next one comes, so a spine can be
longer than the priorities would need. `calcItems_symbols` says that the
stacks hold the spine, and `calc_spine` what the call returns.

## Main definitions

* `Calculator`: The two stacks.
* `Method`: What a method does with the object.
* `calcNumberStack`, `calcItem`, `calcFormula`: The methods.
* `Oper`: The operators.
* `spine`, `collapse`: The stacks as values.

## Theorems

* `calcNumberStack_oper`: One operator is applied.
* `calcItems_symbols`: The stacks after a formula.
* `calc_spine`: The result of a call on a fresh calculator.
-/

namespace BlogSample

namespace PolandNotation

open DotNet

/-- A `Calculator` object: its fields `numStack` and `operStack`, the top
    first. -/
structure Calculator where
  numStack : List Text
  operStack : List Text
  deriving DecidableEq

namespace Calculator

/-- `new Calculator()`. -/
def new : Calculator := ⟨[], []⟩

/-- What a method does: a result or an exception, and the object after it. -/
def Method (α : Type) : Type :=
  Calculator → Except Exn α × Calculator

instance : Monad Method where
  pure a := fun c => (.ok a, c)
  bind x f := fun c =>
    match x c with
    | (.ok a, c') => f a c'
    | (.error e, c') => (.error e, c')

/-- A call that does not touch the object. -/
def static {α : Type} (x : Except Exn α) : Method α :=
  fun c => (x, c)

/-- `numStack.Pop()`. -/
def popNum : Method Text := fun c =>
  match c.numStack with
  | [] => (.error .invalidOperation, c)
  | n :: numStack => (.ok n, { c with numStack })

/-- `numStack.Push(item)`. -/
def pushNum (item : Text) : Method Unit := fun c =>
  (.ok (), { c with numStack := item :: c.numStack })

/-- `operStack.Pop()`. -/
def popOper : Method Text := fun c =>
  match c.operStack with
  | [] => (.error .invalidOperation, c)
  | oper :: operStack => (.ok oper, { c with operStack })

/-- `operStack.Peek()`. -/
def peekOper : Method Text := fun c =>
  match c.operStack with
  | [] => (.error .invalidOperation, c)
  | oper :: _ => (.ok oper, c)

/-- `operStack.Push(item)`. -/
def pushOper (item : Text) : Method Unit := fun c =>
  (.ok (), { c with operStack := item :: c.operStack })

/-- `_opres`. -/
def opres : List Text :=
  [['+'], ['-'], ['x'], ['*'], ['/'], ['('], [')']]

/-- `IsOper(item)`. -/
def isOper (item : Text) : Bool :=
  opres.any (fun x => item == x)

/-- `OperPriority(oper)`. -/
def operPriority (oper : Text) : Int :=
  if oper = ['*'] ∨ oper = ['/'] ∨ oper = ['x'] then 2
  else if oper = ['+'] ∨ oper = ['-'] then 1
  else -1

/-- `IsCalcOper(item)`. -/
def isCalcOper (c : Calculator) (item : Text) : Bool :=
  match c.operStack with
  | [] => false
  | top :: _ => operPriority item ≤ operPriority top && item ≠ ['('] && item ≠ [')']

/-- `CalcByOper(oper, n1, n2)`. -/
def calcByOper (oper : Text) (n1 n2 : Int) : Except Exn Int :=
  if oper = ['+'] then pure (wrap (n1 + n2))
  else if oper = ['-'] then pure (wrap (n1 - n2))
  else if oper = ['x'] ∨ oper = ['*'] then pure (wrap (n1 * n2))
  else if oper = ['/'] then intDiv n1 n2
  else throw .exception

/-- `CalcNumberStack()`. -/
def calcNumberStack : Method Unit := do
  let oper ← popOper
  let s1 ← popNum
  let num1 ← static (intParse s1)
  let s2 ← popNum
  let num2 ← static (intParse s2)
  let res ← static (calcByOper oper num2 num1)
  pushNum (intToString res)

/-- The loop down to an open parenthesis. Every round takes an operator off
    the stack, and `Peek` throws when there is none. -/
def calcToParen : Nat → Method Unit
  | 0 => static (.error .invalidOperation)
  | fuel + 1 => do
      let top ← peekOper
      if top ≠ ['('] then do
        calcNumberStack
        calcToParen fuel
      else pure ()

/-- One round of the loop over the tokens. -/
def calcItem (item : Text) : Method Unit := fun c =>
  (if isOper item then do
    if isCalcOper c item then calcNumberStack else pure ()
    if item = [')'] then do
      calcToParen (c.operStack.length + 1)
      let _ ← popOper
      pure ()
    else pushOper item
  else pushNum item) c

/-- The loop over the tokens. -/
def calcItems : List Text → Method Unit
  | [] => pure ()
  | item :: items => do
      calcItem item
      calcItems items

/-- The loop that empties the operator stack. -/
def calcRest : Nat → Method Unit
  | 0 => pure ()
  | fuel + 1 => do
      calcNumberStack
      calcRest fuel

/-- What `Calc` does after the loop over the tokens. -/
def calcEnd : Method Int := fun c =>
  (do
    calcRest c.operStack.length
    let n ← popNum
    static (intParse n) : Method Int) c

/-- `Calc(formula)`. -/
def calcFormula (formula : Text) : Method Int := do
  let formulaArray ← static (toExpressionList formula)
  calcItems formulaArray
  calcEnd

/-! ### Running a method -/

theorem bind_ok {α β : Type} {x : Method α} {c c' : Calculator} {a : α} (h : x c = (.ok a, c'))
    (f : α → Method β) : (x >>= f) c = f a c' := by
  change (match x c with
    | (.ok a, c') => f a c'
    | (.error e, c') => (.error e, c')) = _
  rw [h]

theorem bind_error {α β : Type} {x : Method α} {c c' : Calculator} {e : Exn}
    (h : x c = (.error e, c')) (f : α → Method β) : (x >>= f) c = (.error e, c') := by
  change (match x c with
    | (.ok a, c') => f a c'
    | (.error e, c') => (.error e, c')) = _
  rw [h]

theorem calcItems_append {xs : List Text} : ∀ {c c' : Calculator},
    calcItems xs c = (.ok (), c') → ∀ ys, calcItems (xs ++ ys) c = calcItems ys c' := by
  induction xs with
  | nil =>
      intro c c' h ys
      have hc : c = c' := (Prod.mk.inj (show (Except.ok (), c) = (Except.ok (), c') from h)).2
      rw [hc]
      rfl
  | cons x xs ih =>
      intro c c' h ys
      cases hx : calcItem x c with
      | mk r m =>
          cases r with
          | error e =>
              rw [calcItems, bind_error hx] at h
              cases h
          | ok a =>
              rw [calcItems, bind_ok hx] at h
              rw [List.cons_append, calcItems, bind_ok hx]
              exact ih h ys

/-! ### Operators and spines -/

/-- The operators. -/
inductive Oper where
  | add
  | sub
  | mul
  | cross
  | div
  deriving DecidableEq

namespace Oper

/-- How an operator is written. -/
def char : Oper → Char
  | add => '+'
  | sub => '-'
  | mul => '*'
  | cross => 'x'
  | div => '/'

/-- Products and quotients bind more than sums and differences. -/
def priority : Oper → Nat
  | add => 1
  | sub => 1
  | mul => 2
  | cross => 2
  | div => 2

/-- What an operator does. -/
def apply : Oper → Int → Int → Except Exn Int
  | add, a, b => pure (wrap (a + b))
  | sub, a, b => pure (wrap (a - b))
  | mul, a, b => pure (wrap (a * b))
  | cross, a, b => pure (wrap (a * b))
  | div, a, b => intDiv a b

theorem isNumber_char (o : Oper) : isNumber o.char = false := by
  cases o <;> rfl

theorem char_ne_space (o : Oper) : o.char ≠ ' ' := by
  cases o <;> decide

theorem isOper_char (o : Oper) : isOper [o.char] = true := by
  cases o <;> rfl

theorem char_ne_paren (o : Oper) : [o.char] ≠ ['('] ∧ [o.char] ≠ [')'] := by
  cases o <;> decide

theorem operPriority_char (o : Oper) : operPriority [o.char] = o.priority := by
  cases o <;> rfl

theorem calcByOper_char (o : Oper) (n1 n2 : Int) : calcByOper [o.char] n1 n2 = o.apply n1 n2 := by
  cases o <;> rfl

/-- The result of an operator is in range. -/
theorem apply_inRange {o : Oper} {a b z : Int} (ha : InRange a) (h : o.apply a b = .ok z) :
    InRange z := by
  cases o with
  | add =>
      rw [← Except.ok.inj h]
      exact wrap_inRange _
  | sub =>
      rw [← Except.ok.inj h]
      exact wrap_inRange _
  | mul =>
      rw [← Except.ok.inj h]
      exact wrap_inRange _
  | cross =>
      rw [← Except.ok.inj h]
      exact wrap_inRange _
  | div => exact intDiv_inRange ha h

end Oper

/-- A literal as an `int`. -/
def literal (n : Nat) : Except Exn Int :=
  if InRange n then pure n else throw .overflow

/-- Apply the operators of a spine from the right. -/
def collapse : List (Int × Oper) → Int → Except Exn Int
  | [], v => pure v
  | x :: s, v => do
      let w ← x.2.apply x.1 v
      collapse s w

/-- Apply the last operator of a spine, if there is one. -/
def reduceTop : List (Int × Oper) → Int → Except Exn (List (Int × Oper) × Int)
  | [], v => pure ([], v)
  | x :: s, v => do
      let w ← x.2.apply x.1 v
      pure (s, w)

/-- The operands and operators that are on the stacks after a formula, and
    its last operand. -/
def spine : Formula Literal Oper → Except Exn (List (Int × Oper) × Int)
  | .num n => do
      let v ← literal n.value
      pure ([], v)
  | .paren f => do
      let s ← spine f
      let v ← collapse s.1 s.2
      pure ([], v)
  | .app o l r => do
      let s ← spine l
      let t ← reduceTop s.1 s.2
      let u ← spine r
      pure (u.1 ++ (t.2, o) :: t.1, u.2)

theorem literal_eq_ok {n : Nat} {v : Int} (h : literal n = .ok v) : InRange v ∧ v = n := by
  unfold literal at h
  by_cases hr : InRange n
  · rw [if_pos hr] at h
    rw [← Except.ok.inj h]
    exact ⟨hr, rfl⟩
  · rw [if_neg hr] at h
    cases h

theorem collapse_append (s t : List (Int × Oper)) (v : Int) :
    collapse (s ++ t) v = (do let w ← collapse s v; collapse t w) := by
  induction s generalizing v with
  | nil => rfl
  | cons x s ih =>
      rw [List.cons_append, collapse, collapse]
      cases x.2.apply x.1 v with
      | error e => rfl
      | ok w => exact ih w

/-- Applying the last operator first makes no difference to the value. -/
theorem collapse_reduceTop {s : List (Int × Oper)} {v w : Int} (h : collapse s v = .ok w) :
    ∃ t u, reduceTop s v = .ok (t, u) ∧ collapse t u = .ok w := by
  cases s with
  | nil => exact ⟨[], v, rfl, h⟩
  | cons x s =>
      rcases bind_eq_ok h with ⟨u, hu, hw⟩
      refine ⟨s, u, ?_, hw⟩
      rw [reduceTop, hu]
      rfl

/-- Everything on a spine is in range. -/
def SpineInRange (s : List (Int × Oper) × Int) : Prop :=
  (∀ x ∈ s.1, InRange x.1) ∧ InRange s.2

theorem reduceTop_inRange {s t : List (Int × Oper) × Int} (hs : SpineInRange s)
    (h : reduceTop s.1 s.2 = .ok t) : SpineInRange t := by
  rcases s with ⟨s, v⟩
  cases s with
  | nil =>
      rw [← Except.ok.inj h]
      exact hs
  | cons x s =>
      rcases bind_eq_ok h with ⟨w, hw, ht⟩
      rw [← Except.ok.inj ht]
      exact ⟨fun y hy => hs.1 y (List.mem_cons_of_mem x hy),
        Oper.apply_inRange (hs.1 x List.mem_cons_self) hw⟩

theorem collapse_inRange {s : List (Int × Oper)} : ∀ {v w : Int}, (∀ x ∈ s, InRange x.1) →
    InRange v → collapse s v = .ok w → InRange w := by
  induction s with
  | nil =>
      intro v w _ hv h
      rw [← Except.ok.inj h]
      exact hv
  | cons x s ih =>
      intro v w hs _ h
      rcases bind_eq_ok h with ⟨u, hu, hw⟩
      exact ih (fun y hy => hs y (List.mem_cons_of_mem x hy))
        (Oper.apply_inRange (hs x List.mem_cons_self) hu) hw

theorem spine_inRange {f : Formula Literal Oper} : ∀ {s : List (Int × Oper) × Int},
    spine f = .ok s → SpineInRange s := by
  induction f with
  | num n =>
      intro s h
      rcases bind_eq_ok h with ⟨v, hv, hs⟩
      rw [← Except.ok.inj hs]
      exact ⟨fun x hx => absurd hx List.not_mem_nil, (literal_eq_ok hv).1⟩
  | paren f ih =>
      intro s h
      rcases bind_eq_ok h with ⟨t, ht, h⟩
      rcases bind_eq_ok h with ⟨v, hv, hs⟩
      rw [← Except.ok.inj hs]
      exact ⟨fun x hx => absurd hx List.not_mem_nil, collapse_inRange (ih ht).1 (ih ht).2 hv⟩
  | app o l r ihl ihr =>
      intro s h
      rcases bind_eq_ok h with ⟨sl, hsl, h⟩
      rcases bind_eq_ok h with ⟨t, ht, h⟩
      rcases bind_eq_ok h with ⟨sr, hsr, hs⟩
      have htr := reduceTop_inRange (ihl hsl) ht
      rw [← Except.ok.inj hs]
      -- A pending operand is of the right spine, the result of the left, or
      -- left over from the left spine.
      refine ⟨fun x hx => ?_, (ihr hsr).2⟩
      rcases List.mem_append.mp hx with hx | hx
      · exact (ihr hsr).1 x hx
      · rcases List.mem_cons.mp hx with hx | hx
        · rw [hx]
          exact htr.2
        · exact htr.1 x hx

/-- The operators of a spine bind no less than its formula does. -/
theorem spine_priority {f : Formula Literal Oper} : ∀ {p : Nat} {s : List (Int × Oper) × Int},
    f.Respects Oper.priority → f.Binds Oper.priority p → spine f = .ok s →
    ∀ x ∈ s.1, p ≤ x.2.priority := by
  induction f with
  | num n =>
      intro p s _ _ h x hx
      rcases bind_eq_ok h with ⟨v, -, hs⟩
      rw [← Except.ok.inj hs] at hx
      exact absurd hx List.not_mem_nil
  | paren f ih =>
      intro p s _ _ h x hx
      rcases bind_eq_ok h with ⟨t, -, h⟩
      rcases bind_eq_ok h with ⟨v, -, hs⟩
      rw [← Except.ok.inj hs] at hx
      exact absurd hx List.not_mem_nil
  | app o l r ihl ihr =>
      -- The operator itself, those to its right, and what is left of its left operand.
      intro p s hresp hbinds h x hx
      rcases hresp with ⟨hl, hr, hbl, hbr⟩
      rcases bind_eq_ok h with ⟨sl, hsl, h⟩
      rcases bind_eq_ok h with ⟨t, ht, h⟩
      rcases bind_eq_ok h with ⟨sr, hsr, hs⟩
      have hp : p ≤ o.priority := hbinds
      rw [← Except.ok.inj hs] at hx
      rcases List.mem_append.mp hx with hx | hx
      · have := ihr hr hbr hsr x hx
        omega
      · rcases List.mem_cons.mp hx with hx | hx
        · rw [hx]
          exact hp
        -- What is left of the left operand's spine was on it before.
        · have hmem : x ∈ sl.1 := by
            rcases sl with ⟨sl, v⟩
            cases sl with
            | nil =>
                rw [← Except.ok.inj ht] at hx
                exact hx
            | cons y sl =>
                rcases bind_eq_ok ht with ⟨w, -, ht⟩
                rw [← Except.ok.inj ht] at hx
                exact List.mem_cons_of_mem y hx
          exact Nat.le_trans hp (ihl hl hbl hsl x hmem)

/-! ### The stacks -/

/-- An operator is taken off its stack, two numbers off theirs, and the
    result is put there. -/
theorem calcNumberStack_ok {oper s1 s2 : Text} {opers nums : List Text} {num1 num2 res : Int}
    (h1 : intParse s1 = .ok num1) (h2 : intParse s2 = .ok num2)
    (hres : calcByOper oper num2 num1 = .ok res) :
    calcNumberStack ⟨s1 :: s2 :: nums, oper :: opers⟩
      = (.ok (), ⟨intToString res :: nums, opers⟩) := by
  have hop : popOper ⟨s1 :: s2 :: nums, oper :: opers⟩
      = (.ok oper, ⟨s1 :: s2 :: nums, opers⟩) := rfl
  have hpop1 : popNum ⟨s1 :: s2 :: nums, opers⟩ = (.ok s1, ⟨s2 :: nums, opers⟩) := rfl
  have hpop2 : popNum ⟨s2 :: nums, opers⟩ = (.ok s2, ⟨nums, opers⟩) := rfl
  have hparse1 : static (intParse s1) ⟨s2 :: nums, opers⟩ = (.ok num1, ⟨s2 :: nums, opers⟩) := by
    rw [static, h1]
  have hparse2 : static (intParse s2) ⟨nums, opers⟩ = (.ok num2, ⟨nums, opers⟩) := by
    rw [static, h2]
  have hcalc : static (calcByOper oper num2 num1) ⟨nums, opers⟩ = (.ok res, ⟨nums, opers⟩) := by
    rw [static, hres]
  unfold calcNumberStack
  rw [bind_ok hop, bind_ok hpop1, bind_ok hparse1, bind_ok hpop2, bind_ok hparse2, bind_ok hcalc]
  rfl

/-- One operator is applied to the two topmost numbers. -/
theorem calcNumberStack_oper {o : Oper} {s1 s2 : Text} {nums opers : List Text} {a b z : Int}
    (h1 : intParse s1 = .ok b) (h2 : intParse s2 = .ok a) (h : o.apply a b = .ok z) :
    calcNumberStack ⟨s1 :: s2 :: nums, [o.char] :: opers⟩
      = (.ok (), ⟨intToString z :: nums, opers⟩) :=
  calcNumberStack_ok h1 h2 ((Oper.calcByOper_char o a b).trans h)

/-- Texts that stand for the operands of a spine. -/
def Shows (ts : List Text) (s : List (Int × Oper)) : Prop :=
  List.Forall₂ (fun t x => intParse t = .ok x.1) ts s

/-- The operators of a spine as they are on the stack. -/
def operTexts (s : List (Int × Oper)) : List Text :=
  s.map (fun x => [x.2.char])

/-- The loop down to an open parenthesis collapses what is above it. -/
theorem calcToParen_collapse (s : List (Int × Oper)) : ∀ (fuel : Nat) (v w : Int) (t : Text)
    (ts nums opers : List Text), s.length < fuel → (∀ x ∈ s, InRange x.1) → Shows ts s →
    intParse t = .ok v → collapse s v = .ok w →
    ∃ t', intParse t' = .ok w ∧
      calcToParen fuel ⟨t :: ts ++ nums, operTexts s ++ ['('] :: opers⟩
        = (.ok (), ⟨t' :: nums, ['('] :: opers⟩) := by
  induction s with
  | nil =>
      intro fuel v w t ts nums opers hfuel _ hts ht hw
      cases hts
      cases fuel with
      | zero => exact absurd hfuel (Nat.not_lt_zero _)
      | succ fuel =>
          rw [← Except.ok.inj hw]
          exact ⟨t, ht, rfl⟩
  | cons x s ih =>
      intro fuel v w t ts nums opers hfuel hs hts ht hw
      cases hts with
      | cons hx hts =>
          rename_i t₁ ts
          rcases bind_eq_ok hw with ⟨u, hu, hw⟩
          cases fuel with
          | zero => exact absurd hfuel (Nat.not_lt_zero _)
          | succ fuel =>
              -- What is computed is an `int`, so its text is parsed again.
              have hu' := Oper.apply_inRange (hs x List.mem_cons_self) hu
              rcases ih fuel u w (intToString u) ts nums opers (Nat.lt_of_succ_lt_succ hfuel)
                (fun y hy => hs y (List.mem_cons_of_mem x hy)) hts
                (intParse_intToString hu') hw with ⟨t', ht', hrun⟩
              refine ⟨t', ht', ?_⟩
              rw [calcToParen, bind_ok (show peekOper _ = (.ok [x.2.char], _) from rfl),
                if_pos (Oper.char_ne_paren x.2).1]
              exact (bind_ok (calcNumberStack_oper ht hx hu) _).trans hrun

/-- So does the loop at the end, with nothing below. -/
theorem calcRest_collapse (s : List (Int × Oper)) : ∀ (v w : Int) (t : Text) (ts nums : List Text),
    (∀ x ∈ s, InRange x.1) → Shows ts s → intParse t = .ok v → collapse s v = .ok w →
    ∃ t', intParse t' = .ok w ∧
      calcRest s.length ⟨t :: ts ++ nums, operTexts s⟩ = (.ok (), ⟨t' :: nums, []⟩) := by
  induction s with
  | nil =>
      intro v w t ts nums _ hts ht hw
      cases hts
      rw [← Except.ok.inj hw]
      exact ⟨t, ht, rfl⟩
  | cons x s ih =>
      intro v w t ts nums hs hts ht hw
      cases hts with
      | cons hx hts =>
          rename_i t₁ ts
          rcases bind_eq_ok hw with ⟨u, hu, hw⟩
          have hu' := Oper.apply_inRange (hs x List.mem_cons_self) hu
          rcases ih u w (intToString u) ts nums (fun y hy => hs y (List.mem_cons_of_mem x hy)) hts
            (intParse_intToString hu') hw with ⟨t', ht', hrun⟩
          refine ⟨t', ht', ?_⟩
          rw [List.length_cons, calcRest]
          exact (bind_ok (calcNumberStack_oper ht hx hu) _).trans hrun

theorem isOper_digits {item : Text} (hne : item ≠ []) (h : ∀ c ∈ item, isNumber c = true) :
    isOper item = false := by
  refine List.any_eq_false.mpr (fun x hx heq => ?_)
  have heq := eq_of_beq heq
  subst heq
  cases item with
  | nil => exact hne rfl
  | cons c rest =>
      have hc := h c List.mem_cons_self
      simp only [opres, List.mem_cons, List.cons.injEq, List.not_mem_nil, or_false] at hx
      rcases hx with hx | hx | hx | hx | hx | hx | hx
      all_goals
        rw [hx.1] at hc
        cases hc

/-- A literal goes onto the number stack. -/
theorem calcItem_num (n : Literal) (c : Calculator) :
    calcItem n.digits c = (.ok (), { c with numStack := n.digits :: c.numStack }) := by
  unfold calcItem
  rw [isOper_digits n.ne n.all]
  rfl

theorem calcItem_lparen (c : Calculator) :
    calcItem ['('] c = (.ok (), { c with operStack := ['('] :: c.operStack }) := by
  have hcalc : isCalcOper c ['('] = false := by
    unfold isCalcOper
    cases c.operStack with
    | nil => rfl
    | cons top opers => simp
  unfold calcItem
  rw [hcalc]
  rfl

/-- A closed parenthesis leaves the value of what it closes. -/
theorem calcItem_rparen (nums opers : List Text) {s : List (Int × Oper)} {v w : Int} {t : Text}
    {ts : List Text} (hs : ∀ x ∈ s, InRange x.1) (hts : Shows ts s) (ht : intParse t = .ok v)
    (hw : collapse s v = .ok w) :
    ∃ t', intParse t' = .ok w ∧
      calcItem [')'] ⟨t :: ts ++ nums, operTexts s ++ ['('] :: opers⟩
        = (.ok (), ⟨t' :: nums, opers⟩) := by
  have hcalc : isCalcOper ⟨t :: ts ++ nums, operTexts s ++ ['('] :: opers⟩ [')'] = false := by
    unfold isCalcOper
    cases operTexts s ++ ['('] :: opers with
    | nil => rfl
    | cons top opers => simp
  have hfuel : s.length < (operTexts s ++ ['('] :: opers).length + 1 := by
    rw [List.length_append, operTexts, List.length_map, List.length_cons]
    omega
  rcases calcToParen_collapse s _ v w t ts nums opers hfuel hs hts ht hw with ⟨t', ht', hrun⟩
  refine ⟨t', ht', ?_⟩
  unfold calcItem
  rw [hcalc]
  change (do
    calcToParen ((operTexts s ++ ['('] :: opers).length + 1)
    let _ ← popOper
    pure ()) _ = _
  rw [bind_ok hrun]
  rfl

/-- An operator lets one operator before it be applied, if that is on top
    and binds no less. -/
theorem calcItem_oper (nums : List Text) {o : Oper} {s s' : List (Int × Oper)} {v w : Int}
    {t : Text} {ts opers : List Text} (hs : ∀ x ∈ s, InRange x.1 ∧ o.priority ≤ x.2.priority)
    (hopers : ∀ top ∈ opers.head?, operPriority top < o.priority) (hts : Shows ts s)
    (ht : intParse t = .ok v) (hred : reduceTop s v = .ok (s', w)) :
    ∃ t' ts', intParse t' = .ok w ∧ Shows ts' s' ∧
      calcItem [o.char] ⟨t :: ts ++ nums, operTexts s ++ opers⟩
        = (.ok (), ⟨t' :: ts' ++ nums, [o.char] :: (operTexts s' ++ opers)⟩) := by
  have hparen := Oper.char_ne_paren o
  cases s with
  | nil =>
      -- Nothing of the left operand is pending.
      cases hts
      have hpair := Except.ok.inj hred
      rw [Prod.mk.injEq] at hpair
      rw [← hpair.1, ← hpair.2]
      refine ⟨t, [], ht, .nil, ?_⟩
      have hcalc : isCalcOper ⟨[t] ++ nums, operTexts [] ++ opers⟩ [o.char] = false := by
        unfold isCalcOper
        cases opers with
        | nil => rfl
        | cons top opers =>
            have hlt := hopers top rfl
            rw [← Oper.operPriority_char] at hlt
            change (decide (operPriority [o.char] ≤ operPriority top) && _ && _) = false
            rw [decide_eq_false (Int.not_le.mpr hlt), Bool.false_and, Bool.false_and]
      unfold calcItem
      rw [hcalc, Oper.isOper_char]
      change (do
        pure ()
        if [o.char] = [')'] then do
          calcToParen _
          let _ ← popOper
          pure ()
        else pushOper [o.char] : Method Unit) _ = _
      rw [if_neg hparen.2]
      rfl
  | cons x s =>
      cases hts with
      | cons hx hts =>
          rename_i t₁ ts
          rcases bind_eq_ok hred with ⟨u, hu, hpair⟩
          have hpair := Except.ok.inj hpair
          rw [Prod.mk.injEq] at hpair
          rw [← hpair.1, ← hpair.2]
          have hu' := Oper.apply_inRange (hs x List.mem_cons_self).1 hu
          refine ⟨intToString u, ts, intParse_intToString hu', hts, ?_⟩
          have hcalc : isCalcOper ⟨t :: (t₁ :: ts) ++ nums, operTexts (x :: s) ++ opers⟩ [o.char]
              = true := by
            have hle := (hs x List.mem_cons_self).2
            change (decide (operPriority [o.char] ≤ operPriority [x.2.char]) && _ && _) = true
            rw [Oper.operPriority_char, Oper.operPriority_char, decide_eq_true (by omega),
              decide_eq_true hparen.1, decide_eq_true hparen.2]
            rfl
          unfold calcItem
          rw [hcalc, Oper.isOper_char]
          change (do
            calcNumberStack
            if [o.char] = [')'] then do
              calcToParen _
              let _ ← popOper
              pure ()
            else pushOper [o.char] : Method Unit) _ = _
          rw [if_neg hparen.2]
          exact bind_ok (calcNumberStack_oper ht hx hu) _

/-- After a formula the stacks hold its spine, on top of what they held. -/
theorem calcItems_symbols (f : Formula Literal Oper) : ∀ (p : Nat) (nums opers : List Text)
    (s : List (Int × Oper)) (v : Int), f.Respects Oper.priority → f.Binds Oper.priority p →
    (∀ top ∈ opers.head?, operPriority top < p) → spine f = .ok (s, v) →
    ∃ t ts, intParse t = .ok v ∧ Shows ts s ∧
      calcItems (f.symbols.map (text Oper.char)) ⟨nums, opers⟩
        = (.ok (), ⟨t :: ts ++ nums, operTexts s ++ opers⟩) := by
  induction f with
  | num n =>
      intro p nums opers s v _ _ _ h
      rcases bind_eq_ok h with ⟨w, hw, hpair⟩
      have hpair := Except.ok.inj hpair
      rw [Prod.mk.injEq] at hpair
      rcases literal_eq_ok hw with ⟨hr, hval⟩
      have hparse : intParse n.digits = .ok v := by
        rw [← hpair.2, hval]
        exact intParse_digits n.ne n.all (hval ▸ hr)
      -- A literal is put on the stack of numbers, as its digits.
      refine ⟨n.digits, [], hparse, hpair.1 ▸ .nil, ?_⟩
      rw [← hpair.1]
      change (do calcItem n.digits; calcItems []) _ = _
      rw [bind_ok (calcItem_num n _)]
      rfl
  | paren f ih =>
      intro p nums opers s v hresp _ _ h
      rcases bind_eq_ok h with ⟨u, hu, h⟩
      rcases bind_eq_ok h with ⟨w, hw, hpair⟩
      have hpair := Except.ok.inj hpair
      rw [Prod.mk.injEq] at hpair
      have hur := spine_inRange hu
      -- The open parenthesis keeps what is below it from being applied.
      rcases ih 0 nums (['('] :: opers) u.1 u.2 hresp (Formula.Binds.zero _ f)
        (fun top htop => by rw [← Option.some.inj htop]; decide) hu with ⟨t, ts, ht, hts, hrun⟩
      rcases calcItem_rparen nums opers hur.1 hts ht hw with ⟨t', ht', hclose⟩
      refine ⟨t', [], hpair.2 ▸ ht', hpair.1 ▸ .nil, ?_⟩
      rw [← hpair.1, Formula.symbols, List.map_append, List.map_cons, List.cons_append, text_lparen,
        calcItems, bind_ok (calcItem_lparen _), calcItems_append hrun]
      change (do calcItem [')']; calcItems []) _ = _
      rw [bind_ok hclose]
      rfl
  | app o l r ihl ihr =>
      intro p nums opers s v hresp hbinds hopers h
      rcases hresp with ⟨hl, hr, hbl, hbr⟩
      rcases bind_eq_ok h with ⟨sl, hsl, h⟩
      rcases bind_eq_ok h with ⟨u, hu, h⟩
      rcases bind_eq_ok h with ⟨sr, hsr, hpair⟩
      have hpair := Except.ok.inj hpair
      rw [Prod.mk.injEq] at hpair
      have hp : p ≤ o.priority := hbinds
      have hlow : ∀ top ∈ opers.head?, operPriority top < o.priority := by
        intro top htop
        have := hopers top htop
        omega
      -- The left operand leaves operators that bind no less, so the operator is
      -- applied to their result down to what is below.
      rcases ihl o.priority nums opers sl.1 sl.2 hl hbl hlow hsl with ⟨t, ts, ht, hts, hrun⟩
      have hpend : ∀ x ∈ sl.1, InRange x.1 ∧ o.priority ≤ x.2.priority :=
        fun x hx => ⟨(spine_inRange hsl).1 x hx, spine_priority hl hbl hsl x hx⟩
      rcases calcItem_oper nums hpend hlow hts ht hu with ⟨t₁, ts₁, ht₁, hts₁, hoper⟩
      have htop : ∀ top ∈ ([o.char] :: (operTexts u.1 ++ opers)).head?,
          operPriority top < (o.priority + 1 : Nat) := by
        intro top htop
        rw [← Option.some.inj htop, Oper.operPriority_char]
        omega
      -- The right operand binds more, so the operator stays below it.
      rcases ihr (o.priority + 1) (t₁ :: ts₁ ++ nums) _ sr.1 sr.2 hr hbr htop hsr with
        ⟨t₂, ts₂, ht₂, hts₂, hrun₂⟩
      refine ⟨t₂, ts₂ ++ t₁ :: ts₁, hpair.2 ▸ ht₂, ?_, ?_⟩
      · rw [← hpair.1]
        exact List.rel_append hts₂ (.cons ht₁ hts₁)
      · rw [← hpair.1, Formula.symbols, List.map_append, List.map_cons, calcItems_append hrun,
          text_oper, calcItems, bind_ok hoper, hrun₂]
        simp only [operTexts, List.map_append, List.map_cons, List.append_assoc, List.cons_append]

/-- On a fresh calculator the call returns what the spine collapses to, and
    leaves the stacks empty. -/
theorem calc_spine {f : Formula Literal Oper} (hf : f.Respects Oper.priority)
    {s : List (Int × Oper)} {v w : Int} (hs : spine f = .ok (s, v)) (hw : collapse s v = .ok w)
    {formula : Text} (hprints : Prints Oper.char f formula) :
    calcFormula formula new = (.ok w, new) := by
  rcases calcItems_symbols f 0 [] [] s v hf (Formula.Binds.zero _ f)
    (fun top htop => by cases htop) hs with ⟨t, ts, ht, hts, hrun⟩
  have hr := spine_inRange hs
  rcases calcRest_collapse s v w t ts [] hr.1 hts ht hw with ⟨t', ht', hrest⟩
  have htokens : static (toExpressionList formula) new
      = (.ok (f.symbols.map (text Oper.char)), new) := by
    rw [static, toExpressionList_prints Oper.isNumber_char Oper.char_ne_space hprints]
  have hlen : s.length = (operTexts s ++ []).length := by
    rw [List.append_nil, operTexts, List.length_map]
  have hrun' : calcItems (f.symbols.map (text Oper.char)) new
      = (.ok (), ⟨t :: ts ++ [], operTexts s ++ []⟩) := hrun
  unfold calcFormula
  rw [bind_ok htokens, bind_ok hrun']
  change (do
    calcRest (operTexts s ++ []).length
    let n ← popNum
    static (intParse n) : Method Int) ⟨t :: ts ++ [], operTexts s ++ []⟩ = _
  rw [← hlen, List.append_nil (operTexts s), bind_ok hrest]
  change static (intParse t') ⟨[], []⟩ = _
  rw [static, ht']
  rfl

end Calculator

end PolandNotation

end BlogSample
