import BlogSample.PolandNotation.Solution
import Mathlib.Data.List.Chain

/-!
# Malformed Formulas

What `EvalRPN` makes of a text over digits, spaces, parentheses and the four
operators that is not a formula. Nothing in the three passes looks at the
order of operands and operators: a token that is out of place is only noticed
when the third pass runs out of numbers, or meets a parenthesis.

So parentheses that do not match always throw. An operand directly after
another one does not: both are pushed, and an operator further on, or none at
all, takes them. Where operands stand apart, the number of operators leaves
no room for anything but a formula, and `evalRPN_throws` puts both together.

## Main definitions

* `InAlphabet`: Digits, spaces, parentheses and operators.
* `WellFormed`: The grammar of formulas, on characters.
* `parens`: The number of open parentheses.
* `OperandsApart`: No operand directly after another one.

## Theorems

* `tokens_exists_symbols`: The tokens are texts of symbols.
* `suffixStep_parens`, `suffixStep_countP`: What a round of the second pass
  keeps.
* `evalStep_spec`: What a round of the third pass asks for.
* `evalRPN_throws`: Malformed texts that throw.
-/

namespace BlogSample

namespace PolandNotation

open DotNet

namespace Solution

/-- Digits, spaces, parentheses and the four operators. -/
def InAlphabet (formula : Text) : Prop :=
  ∀ c ∈ formula, isNumber c = true ∨ c = ' ' ∨ c = '(' ∨ c = ')' ∨ ∃ o : Oper, c = o.char

/-- A literal, a formula in parentheses, or two formulas with an operator
    between them. -/
inductive WellFormed : Text → Prop
  | literal (n : Literal) : WellFormed n.digits
  | paren (s : Text) : WellFormed s → WellFormed ('(' :: s ++ [')'])
  | app (s : Text) (o : Oper) (t : Text) :
      WellFormed s → WellFormed t → WellFormed (s ++ o.char :: t)

/-- The number of parentheses that are open after a text, if none is closed
    that is not open. -/
def parens : Nat → Text → Option Nat
  | d, [] => some d
  | d, c :: s =>
      if c = '(' then parens (d + 1) s
      else if c = ')' then (if d = 0 then none else parens (d - 1) s)
      else parens d s

/-- No literal or closed parenthesis is directly followed by an open one, and
    no closed one by a literal. -/
def OperandsApart (s : Text) : Prop :=
  s.IsChain (fun a b => ¬ ((isNumber a = true ∨ a = ')') ∧ b = '(') ∧
    ¬ (a = ')' ∧ isNumber b = true))

/-! ### Symbols of a text -/

/-- A text of the grammar, from a list of symbols. -/
theorem wellFormed_of_derivable {s : List (Symbol Literal Oper)} (h : Derivable s) :
    WellFormed (s.map (text Oper.char)).flatten := by
  induction h with
  | num n =>
      rw [List.map_singleton, List.flatten_singleton]
      exact .literal n
  | paren s _ ih =>
      rw [List.map_append, List.map_cons, List.flatten_append, List.flatten_cons]
      exact .paren _ ih
  | app s o t _ _ ihs iht =>
      rw [List.map_append, List.map_cons, List.flatten_append, List.flatten_cons]
      exact .app _ o _ ihs iht

theorem parens_digits {ds : Text} (h : ∀ c ∈ ds, isNumber c = true) (d : Nat) (s : Text) :
    parens d (ds ++ s) = parens d s := by
  induction ds with
  | nil => rfl
  | cons c ds ih =>
      have hc := h c List.mem_cons_self
      have hopen : c ≠ '(' := by
        intro heq
        rw [heq] at hc
        cases hc
      have hclose : c ≠ ')' := by
        intro heq
        rw [heq] at hc
        cases hc
      rw [List.cons_append, parens, if_neg hopen, if_neg hclose]
      exact ih (fun e he => h e (List.mem_cons_of_mem c he))

theorem parens_oper (o : Oper) (d : Nat) (s : Text) : parens d (o.char :: s) = parens d s := by
  have hchar : o.char ≠ '(' ∧ o.char ≠ ')' := by
    cases o <;> decide
  rw [parens, if_neg hchar.1, if_neg hchar.2]

/-- Parentheses match in a text if they do among its symbols. -/
theorem parens_symbols (s : List (Symbol Literal Oper)) (d : Nat) :
    parens d (s.map (text Oper.char)).flatten = depth d s := by
  induction s generalizing d with
  | nil => rfl
  | cons a s ih =>
      rw [List.map_cons, List.flatten_cons]
      cases a with
      | num n =>
          rw [text_num, parens_digits n.all]
          exact ih d
      | oper o =>
          rw [text_oper, List.singleton_append, parens_oper]
          exact ih d
      | lparen =>
          rw [text_lparen, List.singleton_append, parens, if_pos rfl]
          exact ih (d + 1)
      | rparen =>
          rw [text_rparen, List.singleton_append, parens, if_neg (by decide), if_pos rfl]
          cases d with
          | zero => rfl
          | succ d => exact ih d

/-- Operands that stand apart in the text do so among the symbols, also after
    an operand (`b`), if the text does not begin with one. -/
def KeepsApart (s : Text) (syms : List (Symbol Literal Oper)) : Prop :=
  ∀ b, OperandsApart s → (b = true → ∀ c ∈ s.head?, isNumber c = false ∧ c ≠ '(') → Apart b syms

theorem keepsApart_nil (s : Text) : KeepsApart s [] := by
  intro b _ _
  cases b <;> exact trivial

/-- A literal is an operand, and the digits after it belong to it. -/
theorem keepsApart_literal {n : Literal} {rest : Text} {syms : List (Symbol Literal Oper)}
    (hhead : ∀ c ∈ rest.head?, isNumber c = false) (h : KeepsApart rest syms) :
    KeepsApart (n.digits ++ rest) (.num n :: syms) := by
  intro b hchain hb
  unfold OperandsApart at hchain
  rw [List.isChain_append] at hchain
  have hnext := h true hchain.2.1 (fun _ e he => by
    refine ⟨hhead e he, fun heq => ?_⟩
    have hlast := List.getLast?_eq_some_getLast n.ne
    have hdig := n.all _ (List.getLast_mem n.ne)
    exact (hchain.2.2 _ hlast e he).1 ⟨Or.inl hdig, heq⟩)
  cases b with
  | false => exact hnext
  | true =>
      -- After an operand the text does not begin with a digit.
      rcases List.exists_cons_of_ne_nil n.ne with ⟨c, ds, hds⟩
      have hnot := (hb rfl c (by rw [hds]; rfl)).1
      rw [n.all c (by rw [hds]; exact List.mem_cons_self)] at hnot
      cases hnot

theorem keepsApart_lparen {rest : Text} {syms : List (Symbol Literal Oper)}
    (h : KeepsApart rest syms) : KeepsApart ('(' :: rest) (.lparen :: syms) := by
  intro b hchain hb
  unfold OperandsApart at hchain
  rw [List.isChain_cons] at hchain
  cases b with
  | false => exact h false hchain.2 (fun h => by cases h)
  | true => exact absurd rfl (hb rfl '(' rfl).2

theorem keepsApart_rparen {rest : Text} {syms : List (Symbol Literal Oper)}
    (h : KeepsApart rest syms) : KeepsApart (')' :: rest) (.rparen :: syms) := by
  intro b hchain _
  unfold OperandsApart at hchain
  rw [List.isChain_cons] at hchain
  have hnext := h true hchain.2 (fun _ e he => by
    have hpair := hchain.1 e he
    refine ⟨?_, fun heq => hpair.1 ⟨Or.inr rfl, heq⟩⟩
    rw [← Bool.not_eq_true]
    exact fun hnum => hpair.2 ⟨rfl, hnum⟩)
  cases b <;> exact hnext

theorem keepsApart_oper (o : Oper) {rest : Text} {syms : List (Symbol Literal Oper)}
    (h : KeepsApart rest syms) : KeepsApart (o.char :: rest) (.oper o :: syms) := by
  intro b hchain _
  unfold OperandsApart at hchain
  rw [List.isChain_cons] at hchain
  have hnext := h false hchain.2 (fun h => by cases h)
  cases b <;> exact hnext

/-- Every token of a text over the alphabet, without spaces, is the text of a
    symbol, and operands that stand apart in the text do so among the
    symbols. -/
theorem tokens_exists_symbols (fuel : Nat) : ∀ s : Text, s.length ≤ fuel →
    (∀ c ∈ s, isNumber c = true ∨ c = '(' ∨ c = ')' ∨ ∃ o : Oper, c = o.char) →
    ∃ syms : List (Symbol Literal Oper), tokens fuel s = syms.map (text Oper.char) ∧
      KeepsApart s syms := by
  induction fuel with
  | zero => exact fun s _ _ => ⟨[], rfl, keepsApart_nil s⟩
  | succ fuel ih =>
      intro s hs halpha
      cases s with
      | nil => exact ⟨[], rfl, keepsApart_nil []⟩
      | cons c rest =>
          have hrest : ∀ e ∈ rest, isNumber e = true ∨ e = '(' ∨ e = ')' ∨ ∃ o : Oper, e = o.char :=
            fun e he => halpha e (List.mem_cons_of_mem c he)
          rw [tokens]
          by_cases hc : isNumber c = true
          -- A literal, with all the digits that follow.
          · rcases readNumber_spec rest [c] with ⟨ds, rest', hs', hread, hds, hhead⟩
            have hnum : readNumber [] (c :: rest) = (c :: ds, rest') := by
              rw [readNumber, if_pos hc]
              exact hread
            have hall : ∀ e ∈ c :: ds, isNumber e = true := by
              intro e he
              rcases List.mem_cons.mp he with he | he
              · rw [he]
                exact hc
              · exact hds e he
            have hlen : rest'.length ≤ fuel := by
              rw [List.length_cons, hs', List.length_append] at hs
              omega
            have hsub : ∀ e ∈ rest', e ∈ rest := by
              intro e he
              rw [hs']
              exact List.mem_append_right ds he
            rcases ih rest' hlen (fun e he => hrest e (hsub e he)) with ⟨syms, hsyms, hapart⟩
            refine ⟨.num ⟨c :: ds, List.cons_ne_nil _ _, hall⟩ :: syms, ?_, ?_⟩
            · rw [if_neg (fun h => h hc), hnum, hsyms]
              rfl
            · rw [hs']
              exact keepsApart_literal (n := ⟨c :: ds, List.cons_ne_nil _ _, hall⟩) hhead hapart
          -- A parenthesis or an operator.
          · rw [if_pos hc]
            rcases ih rest (Nat.le_of_succ_le_succ hs) hrest with ⟨syms, hsyms, hapart⟩
            rw [hsyms]
            rcases (halpha c List.mem_cons_self).resolve_left hc with hc' | hc' | ⟨o, hc'⟩
            · rw [hc']
              exact ⟨.lparen :: syms, rfl, keepsApart_lparen hapart⟩
            · rw [hc']
              exact ⟨.rparen :: syms, rfl, keepsApart_rparen hapart⟩
            · rw [hc']
              exact ⟨.oper o :: syms, rfl, keepsApart_oper o hapart⟩

/-! ### The second pass -/

/-- The loop over the operators moves those that bind no less. -/
theorem popOperators_spec (item : Text) (stack : List Text) : ∀ result : List Text,
    ∃ pend rest, stack = pend ++ rest ∧
      popOperators item result stack = (result ++ pend, rest) ∧
      ∀ t ∈ pend, operPriority item ≤ operPriority t := by
  induction stack with
  | nil =>
      intro result
      refine ⟨[], [], rfl, ?_, fun t ht => absurd ht List.not_mem_nil⟩
      rw [List.append_nil]
      rfl
  | cons t stack ih =>
      intro result
      rw [popOperators]
      -- Operators that bind as much are popped, up to the first that does not.
      by_cases h : operPriority item ≤ operPriority t
      · rcases ih (result ++ [t]) with ⟨pend, rest, hstack, hpop, hpend⟩
        refine ⟨t :: pend, rest, ?_, ?_, ?_⟩
        · rw [hstack, List.cons_append]
        · rw [if_pos h, hpop, List.append_assoc]
          rfl
        · intro u hu
          rcases List.mem_cons.mp hu with hu | hu
          · rw [hu]
            exact h
          · exact hpend u hu
      · refine ⟨[], t :: stack, rfl, ?_, fun u hu => absurd hu List.not_mem_nil⟩
        rw [if_neg h, List.append_nil]

/-- The loop down to an open parenthesis moves what is above it. -/
theorem popToParen_spec (stack : List Text) : ∀ (result r st : List Text),
    popToParen result stack = .ok (r, st) → ∃ pend rest, stack = pend ++ ['('] :: rest ∧
      r = result ++ pend ∧ st = ['('] :: rest ∧ ∀ t ∈ pend, t ≠ ['('] := by
  induction stack with
  | nil =>
      intro result r st h
      cases h
  | cons t stack ih =>
      intro result r st h
      rw [popToParen] at h
      -- The parenthesis ends the loop and stays on the stack.
      by_cases ht : t = ['(']
      · rw [if_neg (fun hne => hne ht)] at h
        have hpair := Except.ok.inj h
        rw [Prod.mk.injEq] at hpair
        refine ⟨[], stack, ?_, ?_, ?_, fun u hu => absurd hu List.not_mem_nil⟩
        · rw [ht]
          rfl
        · rw [List.append_nil]
          exact hpair.1.symm
        · rw [← ht]
          exact hpair.2.symm
      · rw [if_pos ht] at h
        rcases ih _ r st h with ⟨pend, rest, hstack, hr, hst, hpend⟩
        refine ⟨t :: pend, rest, ?_, ?_, hst, ?_⟩
        · rw [hstack, List.cons_append]
        · rw [hr, List.append_assoc]
          rfl
        · intro u hu
          rcases List.mem_cons.mp hu with hu | hu
          · rw [hu]
            exact ht
          · exact hpend u hu

/-- What a round of the second pass does, by the symbol it reads. -/
theorem suffixStep_cases {a : Symbol Literal Oper} {r st r' st' : List Text}
    (h : suffixStep (r, st) (text Oper.char a) = .ok (r', st')) :
    (∃ n, a = .num n ∧ r' = r ++ [n.digits] ∧ st' = st) ∨
    (a = .lparen ∧ r' = r ∧ st' = ['('] :: st) ∨
    (a = .rparen ∧ st = [] ∧ r' = r ∧ st' = [[')']]) ∨
    (a = .rparen ∧ ∃ pend, st = pend ++ ['('] :: st' ∧ r' = r ++ pend ∧
      ∀ t ∈ pend, t ≠ ['(']) ∨
    (∃ o, a = .oper o ∧ ∃ pend rest, st = pend ++ rest ∧ r' = r ++ pend ∧
      st' = [o.char] :: rest ∧ ∀ t ∈ pend, t ≠ ['(']) := by
  cases a with
  | num n =>
      rw [text_num, suffixStep_num] at h
      have hpair := Except.ok.inj h
      rw [Prod.mk.injEq] at hpair
      exact Or.inl ⟨n, rfl, hpair.1.symm, hpair.2.symm⟩
  | lparen =>
      rw [text_lparen, suffixStep_lparen] at h
      have hpair := Except.ok.inj h
      rw [Prod.mk.injEq] at hpair
      exact Or.inr (Or.inl ⟨rfl, hpair.1.symm, hpair.2.symm⟩)
  | rparen =>
      refine Or.inr (Or.inr ?_)
      unfold suffixStep at h
      rw [text_rparen, if_neg (by decide)] at h
      by_cases hst : st = []
      -- On an empty stack the parenthesis is pushed like an operator.
      · rw [if_pos (Or.inl hst)] at h
        have hpair := Except.ok.inj h
        rw [Prod.mk.injEq] at hpair
        refine Or.inl ⟨rfl, hst, hpair.1.symm, ?_⟩
        rw [← hpair.2, hst]
      · rw [if_neg (not_or.mpr ⟨hst, by decide⟩), if_pos rfl] at h
        rcases bind_eq_ok h with ⟨s, hs, hpair⟩
        rcases popToParen_spec st r s.1 s.2 hs with ⟨pend, rest, hstack, hr, hst', hpend⟩
        have hpair := Except.ok.inj hpair
        rw [Prod.mk.injEq, hr, hst'] at hpair
        refine Or.inr (Or.inl ⟨rfl, pend, ?_, hpair.1.symm, hpend⟩)
        rw [hstack, ← hpair.2]
        rfl
  | oper o =>
      refine Or.inr (Or.inr (Or.inr (Or.inr ⟨o, rfl, ?_⟩)))
      have hparen : [o.char] ≠ ['('] ∧ [o.char] ≠ [')'] := by
        cases o <;> decide
      unfold suffixStep at h
      rw [text_oper, if_neg (by rw [Oper.hasDigit_char]; exact Bool.false_ne_true)] at h
      by_cases hst : st = []
      · rw [if_pos (Or.inl hst)] at h
        have hpair := Except.ok.inj h
        rw [Prod.mk.injEq] at hpair
        refine ⟨[], [], hst, ?_, ?_, fun t ht => absurd ht List.not_mem_nil⟩
        · rw [List.append_nil]
          exact hpair.1.symm
        · rw [← hpair.2, hst]
      · rw [if_neg (not_or.mpr ⟨hst, hparen.1⟩), if_neg hparen.2] at h
        rcases popOperators_spec [o.char] st r with ⟨pend, rest, hstack, hpop, hpend⟩
        rw [hpop] at h
        have hpair := Except.ok.inj h
        rw [Prod.mk.injEq] at hpair
        refine ⟨pend, rest, hstack, hpair.1.symm, hpair.2.symm, ?_⟩
        -- An open parenthesis has the lowest priority of all.
        intro t ht heq
        have hle := hpend t ht
        rw [heq, Oper.operPriority_char] at hle
        exact absurd hle (by cases o <;> decide)

/-- A closed parenthesis that has got onto the stack stays there or goes to
    the result. -/
theorem suffixStep_rparen_mem {a : Symbol Literal Oper} {r st r' st' : List Text}
    (h : suffixStep (r, st) (text Oper.char a) = .ok (r', st')) (hmem : [')'] ∈ r ++ st) :
    [')'] ∈ r' ++ st' := by
  rcases suffixStep_cases h with ⟨n, -, hr, hst⟩ | ⟨-, hr, hst⟩ | ⟨-, -, hr, hst⟩ |
    ⟨-, pend, hst, hr, -⟩ | ⟨o, -, pend, rest, hst, hr, hst', -⟩
  · rw [hr, hst]
    simp only [List.mem_append] at hmem ⊢
    tauto
  · rw [hr, hst]
    simp only [List.mem_append, List.mem_cons] at hmem ⊢
    tauto
  · rw [hst]
    exact List.mem_append_right _ List.mem_cons_self
  · have hne : ([')'] : Text) ≠ ['('] := by decide
    rw [hst] at hmem
    rw [hr]
    simp only [List.mem_append, List.mem_cons] at hmem ⊢
    tauto
  · rw [hst] at hmem
    rw [hr, hst']
    simp only [List.mem_append, List.mem_cons] at hmem ⊢
    tauto

/-- The open parentheses on the stack are those of the text, as long as no
    closed one is pushed. -/
theorem suffixStep_depth {a : Symbol Literal Oper} {r st r' st' : List Text}
    (h : suffixStep (r, st) (text Oper.char a) = .ok (r', st')) (hmem : [')'] ∉ r' ++ st')
    (s : List (Symbol Literal Oper)) :
    depth (st.count ['(']) (a :: s) = depth (st'.count ['(']) s := by
  rcases suffixStep_cases h with ⟨n, ha, -, hst⟩ | ⟨ha, -, hst⟩ | ⟨-, -, -, hst⟩ |
    ⟨ha, pend, hst, -, hpend⟩ | ⟨o, ha, pend, rest, hst, -, hst', hpend⟩
  · rw [ha, hst]
    rfl
  · rw [ha, hst, List.count_cons_self]
    rfl
  · refine absurd ?_ hmem
    rw [hst]
    exact List.mem_append_right _ List.mem_cons_self
  · have hcount : pend.count ['('] = 0 := List.count_eq_zero.mpr (fun hm => hpend _ hm rfl)
    rw [ha, hst, List.count_append, hcount, Nat.zero_add, List.count_cons_self]
    rfl
  · have hcount : pend.count ['('] = 0 := List.count_eq_zero.mpr (fun hm => hpend _ hm rfl)
    have hchar : ([o.char] == ['(']) = false := by
      cases o <;> rfl
    rw [ha, hst, hst', List.count_append, hcount, Nat.zero_add, List.count_cons, hchar]
    rfl

/-- Nothing but parentheses gets lost, and nothing is added but the token. -/
theorem suffixStep_countP {p : Text → Bool} (hopen : p ['('] = false) (hclose : p [')'] = false)
    {a : Symbol Literal Oper} {r st r' st' : List Text}
    (h : suffixStep (r, st) (text Oper.char a) = .ok (r', st')) :
    (r' ++ st').countP p = (r ++ st).countP p + (if p (text Oper.char a) then 1 else 0) := by
  rcases suffixStep_cases h with ⟨n, ha, hr, hst⟩ | ⟨ha, hr, hst⟩ | ⟨ha, hst, hr, hst'⟩ |
    ⟨ha, pend, hst, hr, -⟩ | ⟨o, ha, pend, rest, hst, hr, hst', -⟩
  · rw [ha, hr, hst, text_num]
    simp only [List.countP_append, List.countP_cons, List.countP_nil]
    omega
  · rw [ha, hr, hst, text_lparen, hopen]
    simp only [List.countP_append, List.countP_cons, hopen]
    omega
  · rw [ha, hr, hst, hst', text_rparen, hclose]
    simp only [List.countP_append, List.countP_cons, List.countP_nil, hclose]
    omega
  · rw [ha, hr, hst, text_rparen, hclose]
    simp only [List.countP_append, List.countP_cons, hopen]
    simp only [Bool.false_eq_true, if_false]
    omega
  · rw [ha, hr, hst, hst', text_oper]
    simp only [List.countP_append, List.countP_cons]
    omega

/-- The whole second pass, when it leaves no closed parenthesis. -/
theorem foldlM_suffixStep_spec {p : Text → Bool} (hopen : p ['('] = false)
    (hclose : p [')'] = false) (s : List (Symbol Literal Oper)) :
    ∀ r st r' st' : List Text,
      (s.map (text Oper.char)).foldlM suffixStep (r, st) = .ok (r', st') → [')'] ∉ r' ++ st' →
      [')'] ∉ r ++ st ∧ depth (st.count ['(']) s = some (st'.count ['(']) ∧
        (r' ++ st').countP p = (r ++ st).countP p + (s.map (text Oper.char)).countP p := by
  induction s with
  | nil =>
      intro r st r' st' h hmem
      have hpair := Except.ok.inj h
      rw [Prod.mk.injEq] at hpair
      rw [hpair.1, hpair.2]
      exact ⟨hmem, rfl, rfl⟩
  | cons a s ih =>
      intro r st r' st' h hmem
      rw [List.map_cons, List.foldlM_cons] at h
      rcases bind_eq_ok h with ⟨m, hstep, hrest⟩
      rcases ih m.1 m.2 r' st' hrest hmem with ⟨hmid, hdepth, hcount⟩
      refine ⟨fun hm => hmid (suffixStep_rparen_mem hstep hm), ?_, ?_⟩
      · rw [suffixStep_depth hstep hmid]
        exact hdepth
      · rw [hcount, suffixStep_countP hopen hclose hstep, List.map_cons, List.countP_cons]
        omega

/-! ### The third pass -/

/-- A round of the third pass pushes a number, or takes two for an operator. -/
theorem evalStep_spec {D : Type} (A : Decimal D) {st st' : List D} {item : Text}
    (h : evalStep A st item = .ok st') :
    (hasDigit item = true ∧ st'.length = st.length + 1) ∨
      (hasDigit item = false ∧ item ≠ ['('] ∧ item ≠ [')'] ∧ st'.length + 1 = st.length) := by
  unfold evalStep at h
  by_cases hd : hasDigit item = true
  · rw [if_pos hd] at h
    rcases bind_eq_ok h with ⟨n, -, hn⟩
    rw [← Except.ok.inj hn]
    exact Or.inl ⟨hd, rfl⟩
  · rw [if_neg hd] at h
    refine Or.inr ⟨Bool.not_eq_true _ ▸ hd, ?_⟩
    cases st with
    | nil => cases h
    | cons n1 st =>
        cases st with
        | nil => cases h
        | cons n2 st =>
            rcases bind_eq_ok h with ⟨n, hcalc, hn⟩
            rw [← Except.ok.inj hn]
            refine ⟨fun hitem => ?_, fun hitem => ?_, rfl⟩
            · rw [hitem] at hcalc
              cases hcalc
            · rw [hitem] at hcalc
              cases hcalc

/-- The whole third pass leaves as many numbers as there are more literals
    than other tokens, and none of those was a parenthesis. -/
theorem foldlM_evalStep_spec {D : Type} (A : Decimal D) (items : List Text) :
    ∀ st st' : List D, items.foldlM (evalStep A) st = .ok st' →
      ['('] ∉ items ∧ [')'] ∉ items ∧
        st'.length + items.countP (fun t => !hasDigit t)
          = st.length + items.countP (fun t => hasDigit t) := by
  induction items with
  | nil =>
      intro st st' h
      rw [← Except.ok.inj h]
      exact ⟨List.not_mem_nil, List.not_mem_nil, rfl⟩
  | cons item items ih =>
      intro st st' h
      rw [List.foldlM_cons] at h
      rcases bind_eq_ok h with ⟨m, hstep, hrest⟩
      rcases ih m st' hrest with ⟨hopen, hclose, hlen⟩
      -- An operand adds one number, and an operator takes one away.
      rcases evalStep_spec A hstep with ⟨hd, hm⟩ | ⟨hd, hitem, hitem', hm⟩
      · refine ⟨?_, ?_, ?_⟩
        · intro hmem
          rcases List.mem_cons.mp hmem with hmem | hmem
          · rw [← hmem] at hd
            exact absurd hd (by decide)
          · exact hopen hmem
        · intro hmem
          rcases List.mem_cons.mp hmem with hmem | hmem
          · rw [← hmem] at hd
            exact absurd hd (by decide)
          · exact hclose hmem
        · simp only [List.countP_cons, hd, Bool.not_true, Bool.false_eq_true, if_false, if_true]
          omega
      · refine ⟨?_, ?_, ?_⟩
        · intro hmem
          rcases List.mem_cons.mp hmem with hmem | hmem
          · exact hitem hmem.symm
          · exact hopen hmem
        · intro hmem
          rcases List.mem_cons.mp hmem with hmem | hmem
          · exact hitem' hmem.symm
          · exact hclose hmem
        · simp only [List.countP_cons, hd, Bool.not_false, Bool.false_eq_true, if_false, if_true]
          omega

/-! ### All three passes -/

/-- A token that is neither a literal nor a parenthesis. -/
def isOper (item : Text) : Bool :=
  !hasDigit item && item ≠ ['('] && item ≠ [')']

theorem countP_hasDigit (s : List (Symbol Literal Oper)) :
    (s.map (text Oper.char)).countP (fun t => hasDigit t) = numCount s := by
  induction s with
  | nil => rfl
  | cons a s ih =>
      rw [List.map_cons, List.countP_cons, ih]
      cases a with
      | num n =>
          rw [text_num, hasDigit_digits n.ne n.all]
          rfl
      | oper o =>
          rw [text_oper, Oper.hasDigit_char]
          rfl
      | lparen => rfl
      | rparen => rfl

theorem countP_isOper (s : List (Symbol Literal Oper)) :
    (s.map (text Oper.char)).countP isOper = operCount s := by
  induction s with
  | nil => rfl
  | cons a s ih =>
      rw [List.map_cons, List.countP_cons, ih]
      cases a with
      | num n =>
          have hd : isOper n.digits = false := by
            unfold isOper
            rw [hasDigit_digits n.ne n.all]
            rfl
          rw [text_num, hd]
          rfl
      | oper o =>
          have ho : isOper [o.char] = true := by
            cases o <;> decide
          rw [text_oper, ho]
          rfl
      | lparen => rfl
      | rparen => rfl

/-- A text whose symbols the last two passes get a number from has matching
    parentheses and fewer operators than literals. -/
theorem symbols_of_value {D : Type} (A : Decimal D) {s : List (Symbol Literal Oper)}
    {items : List Text} {n : D} {numStack : List D}
    (hsuffix : toSuffixExpression (s.map (text Oper.char)) = .ok items)
    (heval : items.foldlM (evalStep A) [] = .ok (n :: numStack)) :
    depth 0 s = some 0 ∧ operCount s < numCount s := by
  rcases bind_eq_ok hsuffix with ⟨m, hrun, hitems⟩
  rcases foldlM_evalStep_spec A items [] _ heval with ⟨hopen, hclose, hlen⟩
  have hitems : m.1 ++ m.2 = items := Except.ok.inj hitems
  rw [← hitems] at hopen hclose hlen
  have hcount : m.2.count ['('] = 0 :=
    List.count_eq_zero.mpr (fun hm => hopen (List.mem_append_right _ hm))
  have hoper := foldlM_suffixStep_spec (p := isOper) rfl rfl s [] [] m.1 m.2 hrun hclose
  have hnum := foldlM_suffixStep_spec (p := fun t => hasDigit t) rfl rfl s [] [] m.1 m.2 hrun hclose
  have hdepth := hoper.2.1
  rw [hcount] at hdepth
  refine ⟨hdepth, ?_⟩
  -- Without parentheses the tokens that are no literals are operators.
  have hsame : (m.1 ++ m.2).countP (fun t => !hasDigit t) = (m.1 ++ m.2).countP isOper := by
    refine List.countP_congr (fun t ht => ?_)
    have h₁ : t ≠ ['('] := fun h => hopen (h ▸ ht)
    have h₂ : t ≠ [')'] := fun h => hclose (h ▸ ht)
    unfold isOper
    rw [decide_eq_true h₁, decide_eq_true h₂, Bool.and_true, Bool.and_true]
  rw [hsame, hoper.2.2, hnum.2.2, countP_isOper, countP_hasDigit] at hlen
  simp only [List.length_cons, List.length_nil, List.append_nil, List.countP_nil] at hlen
  omega

/-- Over digits, spaces, parentheses and the four operators, `EvalRPN` throws
    on every text whose parentheses do not match, and on every text without
    an operand directly after another one that is not a formula. -/
theorem evalRPN_throws {D : Type} (A : Decimal D) (formula : Text) (halpha : InAlphabet formula)
    (h : parens 0 (formula.filter (· ≠ ' ')) ≠ some 0 ∨
      OperandsApart (formula.filter (· ≠ ' ')) ∧ ¬ WellFormed (formula.filter (· ≠ ' '))) :
    ∃ e, evalRPN A formula = .error e := by
  cases hrun : evalRPN A formula with
  | error e => exact ⟨e, rfl⟩
  | ok d =>
      exfalso
      rcases bind_eq_ok hrun with ⟨toks, htoks, hrun⟩
      rcases bind_eq_ok hrun with ⟨items, hsuffix, hrun⟩
      rcases bind_eq_ok hrun with ⟨numStack, heval, hlast⟩
      have hclean : ∀ c ∈ formula.filter (· ≠ ' '),
          isNumber c = true ∨ c = '(' ∨ c = ')' ∨ ∃ o : Oper, c = o.char := by
        intro c hc
        rw [List.mem_filter, decide_eq_true_eq] at hc
        rcases halpha c hc.1 with h | h | h
        · exact Or.inl h
        · exact absurd h hc.2
        · exact Or.inr h
      rcases tokens_exists_symbols _ _ (Nat.le_refl _) hclean with ⟨s, hs, hapart⟩
      have hflat := tokens_flatten _ _ (Nat.le_refl (formula.filter (· ≠ ' ')).length)
      rw [hs] at hflat
      have htokens : toks = s.map (text Oper.char) := by
        rw [← hs]
        unfold toExpressionList at htoks
        cases hf : formula.filter (· ≠ ' ') with
        | nil =>
            rw [hf] at htoks
            cases htoks
        | cons c rest =>
            rw [hf] at htoks
            exact (Except.ok.inj htoks).symm
      rw [htokens] at hsuffix
      -- Without a number on the stack `Last` throws.
      cases numStack with
      | nil => cases hlast
      | cons n numStack =>
          rcases symbols_of_value A hsuffix heval with ⟨hdepth, hcount⟩
          rcases h with h | ⟨h, hwf⟩
          · refine h ?_
            rw [← hflat, parens_symbols]
            exact hdepth
          -- With the operands apart, as many numbers as operators allow make a
          -- formula of the symbols.
          · have ha := hapart false h (fun hb => by cases hb)
            rcases (accepts_of_count s).1 ha with ⟨hle, hacc⟩
            refine hwf ?_
            rw [← hflat]
            exact wellFormed_of_derivable (derivable_of_accepts (hacc (by omega)) hdepth)

/-- A closed parenthesis without an open one. -/
theorem evalRPN_throws_unmatched : ∃ e, evalRPN Decimal.exact "1) + (2".toList = .error e := by
  refine evalRPN_throws Decimal.exact "1) + (2".toList ?_ (Or.inl (by decide))
  intro c hc
  have hcases : c = '1' ∨ c = ')' ∨ c = ' ' ∨ c = '+' ∨ c = ' ' ∨ c = '(' ∨ c = '2' := by
    simpa using hc
  rcases hcases with h | h | h | h | h | h | h
  · exact Or.inl (h ▸ rfl)
  · exact Or.inr (Or.inr (Or.inr (Or.inl h)))
  · exact Or.inr (Or.inl h)
  · exact Or.inr (Or.inr (Or.inr (Or.inr ⟨.add, h⟩)))
  · exact Or.inr (Or.inl h)
  · exact Or.inr (Or.inr (Or.inl h))
  · exact Or.inl (h ▸ rfl)

/-- A formula starts with a parenthesis, is a literal, or has an operator. -/
theorem wellFormed_cases {s : Text} (h : WellFormed s) :
    s.head? = some '(' ∨ (∀ c ∈ s, isNumber c = true) ∨ ∃ o : Oper, o.char ∈ s := by
  cases h with
  | literal n => exact Or.inr (Or.inl n.all)
  | paren s _ => exact Or.inl rfl
  | app s o t _ _ =>
      exact Or.inr (Or.inr ⟨o, List.mem_append_right _ List.mem_cons_self⟩)

/-- The second of two operands without an operator is the result. -/
theorem evalRPN_juxtaposed : ¬ ∀ formula : Text, InAlphabet formula →
    ¬ WellFormed (formula.filter (· ≠ ' ')) → ∃ e, evalRPN Decimal.exact formula = .error e := by
  intro h
  have halpha : InAlphabet "1(2)".toList := by
    intro c hc
    have hcases : c = '1' ∨ c = '(' ∨ c = '2' ∨ c = ')' := by
      simpa using hc
    rcases hcases with h | h | h | h
    · exact Or.inl (h ▸ rfl)
    · exact Or.inr (Or.inr (Or.inl h))
    · exact Or.inl (h ▸ rfl)
    · exact Or.inr (Or.inr (Or.inr (Or.inl h)))
  have hmalformed : ¬ WellFormed ("1(2)".toList.filter (· ≠ ' ')) := by
    intro hwf
    rcases wellFormed_cases hwf with h | h | ⟨o, h⟩
    · exact absurd h (by decide)
    · exact absurd (h '(' (by decide)) (by decide)
    · cases o <;> exact absurd h (by decide)
  rcases h _ halpha hmalformed with ⟨e, he⟩
  have hvalue : evalRPN Decimal.exact "1(2)".toList = .ok 2 := by decide +kernel
  rw [hvalue] at he
  cases he

end Solution

end PolandNotation

end BlogSample
