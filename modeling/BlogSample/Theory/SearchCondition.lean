import BlogSample.Theory.SqlLexer

/-!
# Search Conditions

The conditions of a `WHERE` clause, by recursive descent. `NOT` binds before
`AND`, and `AND` before `OR`. Both group to the left, and parentheses group
whatever they enclose. Nothing is ever read twice: what fails in one place
fails as a whole.

Every call of one function by another takes a unit of fuel. Four calls lead
from a parenthesis to the condition inside, so four units for each token are
always enough.

`ReadsOperand`, `ReadsFactor`, `ReadsTerm` and `ReadsSearch` say what is read
at the front of any tokens with enough fuel, and their rules follow the
grammar. They leave open whether there is anything to read, so the same rules
tell what is read and what is not.

## Main definitions

* `Cond`: A search condition.
* `parse`: The condition that a text is.
* `Cond.eval`: Whether a condition holds.

## Theorems

* `ReadsOperand.compare`, `ReadsFactor.not`, `ReadsSearch.paren`: What a factor
  is.
* `ReadsFactor.term`, `ReadsTerm.and`: What a term is.
* `ReadsTerm.search`, `ReadsSearch.or`: What a condition is.
* `ReadsSearch.parseTokens`: Tokens that are one condition.
* `readsFactor_empty`, `ReadsSearch.paren_append`: Tokens that are none.
-/

namespace BlogSample

namespace Sql

/-- What is compared. -/
inductive Operand where
  | column (w : List Char)
  | number (z : Int)
  | string (s : List Char)
  deriving DecidableEq, Repr

/-- A search condition. -/
inductive Cond where
  | compare (op : CompareOp) (a b : Operand)
  | not (c : Cond)
  | and (c d : Cond)
  | or (c d : Cond)
  deriving DecidableEq, Repr

/-- Whether a condition holds, by whether its comparisons do. A comparison that
    makes no sense makes none of the whole. -/
def Cond.eval (atom : CompareOp → Operand → Operand → Option Bool) : Cond → Option Bool
  | .compare op a b => atom op a b
  | .not c => do
      let p ← c.eval atom
      some (!p)
  | .and c d => do
      let p ← c.eval atom
      let q ← d.eval atom
      some (p && q)
  | .or c d => do
      let p ← c.eval atom
      let q ← d.eval atom
      some (p || q)

/-- A column, a number with or without a sign, or a string. -/
def operand : List Token → Option (Operand × List Token)
  | .word w :: ts => some (.column w, ts)
  | .number n :: ts => some (.number n, ts)
  | .minus :: .number n :: ts => some (.number (-n), ts)
  | .string s :: ts => some (.string s, ts)
  | _ => none

/-- Two operands with a comparison operator between them. -/
def comparison (ts : List Token) : Option (Cond × List Token) :=
  match operand ts with
  | some (a, .compare op :: ts) =>
      match operand ts with
      | some (b, ts) => some (.compare op a b, ts)
      | none => none
  | _ => none

mutual

/-- Terms with `OR` between them. -/
def search : Nat → List Token → Option (Cond × List Token)
  | 0, _ => none
  | fuel + 1, ts =>
      match term fuel ts with
      | some (c, ts) => searchRest fuel c ts
      | none => none

def searchRest : Nat → Cond → List Token → Option (Cond × List Token)
  | 0, _, _ => none
  | fuel + 1, c, .or :: ts =>
      match term fuel ts with
      | some (d, ts) => searchRest fuel (.or c d) ts
      | none => none
  | _ + 1, c, ts => some (c, ts)

/-- Factors with `AND` between them. -/
def term : Nat → List Token → Option (Cond × List Token)
  | 0, _ => none
  | fuel + 1, ts =>
      match factor fuel ts with
      | some (c, ts) => termRest fuel c ts
      | none => none

def termRest : Nat → Cond → List Token → Option (Cond × List Token)
  | 0, _, _ => none
  | fuel + 1, c, .and :: ts =>
      match factor fuel ts with
      | some (d, ts) => termRest fuel (.and c d) ts
      | none => none
  | _ + 1, c, ts => some (c, ts)

/-- A comparison or a condition in parentheses, with or without `NOT`. -/
def factor : Nat → List Token → Option (Cond × List Token)
  | 0, _ => none
  | fuel + 1, .not :: ts =>
      match factor fuel ts with
      | some (c, ts) => some (.not c, ts)
      | none => none
  | fuel + 1, .lparen :: ts =>
      match search fuel ts with
      | some (c, .rparen :: ts) => some (c, ts)
      | _ => none
  -- A keyword or a bad token fails here.
  | _ + 1, ts => comparison ts

end

/-- The condition that some tokens are. -/
def parseTokens (ts : List Token) : Option Cond :=
  match search (4 * ts.length + 3) ts with
  | some (c, []) => some c
  | _ => none

/-- The condition that a text is. -/
def parse (reserved : List Char → Bool) (s : List Char) : Option Cond :=
  parseTokens (lex reserved .gap s)

/-- At the front of any tokens, an operand is read. -/
def ReadsOperand (ts : List Token) (o : Option Operand) : Prop :=
  ∀ rest, operand (ts ++ rest) = o.map (fun a => (a, rest))

/-- At the front of any tokens, a factor is read. -/
def ReadsFactor (ts : List Token) (o : Option Cond) : Prop :=
  ∀ n rest, 4 * (ts ++ rest).length + 1 ≤ n →
    factor n (ts ++ rest) = o.map (fun c => (c, rest))

/-- At the front of any tokens, a term is read, and may go on. -/
def ReadsTerm (ts : List Token) (o : Option Cond) : Prop :=
  ∀ n rest, 4 * (ts ++ rest).length + 2 ≤ n → ∃ m, 4 * rest.length + 1 ≤ m ∧
    term n (ts ++ rest) = o.bind (fun c => termRest m c rest)

/-- At the front of tokens that do not go on with `AND`, a condition is read,
    and may go on. -/
def ReadsSearch (ts : List Token) (o : Option Cond) : Prop :=
  ∀ n rest, 4 * (ts ++ rest).length + 3 ≤ n → rest.head? ≠ some .and →
    ∃ m, 4 * rest.length + 2 ≤ m ∧
      search n (ts ++ rest) = o.bind (fun c => searchRest m c rest)

section

variable {ts us : List Token} {o o' : Option Cond}

/-- A term ends in front of what is no `AND`. -/
theorem termRest_end {m : Nat} (hm : 0 < m) (c : Cond) {rest : List Token}
    (hrest : rest.head? ≠ some .and) : termRest m c rest = some (c, rest) := by
  rcases m with _ | m
  · cases hm
  · rcases rest with _ | ⟨t, rest⟩
    · rfl
    · cases t with
      | and => exact absurd rfl hrest
      | _ => rfl

/-- A condition ends in front of what is no `OR`. -/
theorem searchRest_end {m : Nat} (hm : 0 < m) (c : Cond) {rest : List Token}
    (hrest : rest.head? ≠ some .or) : searchRest m c rest = some (c, rest) := by
  rcases m with _ | m
  · cases hm
  · rcases rest with _ | ⟨t, rest⟩
    · rfl
    · cases t with
      | or => exact absurd rfl hrest
      | _ => rfl

/-- A keyword or a bad token is no operand. -/
theorem readsOperand_keyword {t : Token} (ht : t ∈ [.and, .or, .not, .bad]) :
    ReadsOperand [t] none := by
  intro rest
  simp only [List.mem_cons, List.not_mem_nil, or_false] at ht
  rcases ht with rfl | rfl | rfl | rfl
  · rfl
  · rfl
  · rfl
  · rfl

/-- A comparison, which starts with its first operand. -/
theorem ReadsOperand.compare {t : Token} {a b : Option Operand} (h : ReadsOperand (t :: ts) a)
    (ht : t ≠ .not ∧ t ≠ .lparen) (h' : ReadsOperand us b) (op : CompareOp) :
    ReadsFactor (t :: ts ++ .compare op :: us)
      (a.bind (fun a => b.map (fun b => .compare op a b))) := by
  intro n rest hn
  rcases n with _ | n
  · omega
  · have hfactor : factor (n + 1) (t :: ts ++ .compare op :: us ++ rest) =
        comparison (t :: ts ++ .compare op :: (us ++ rest)) := by
      rw [List.append_assoc, List.cons_append, List.cons_append]
      cases t with
      | not => exact absurd rfl ht.1
      | lparen => exact absurd rfl ht.2
      | _ => rfl
    rw [hfactor, comparison, h]
    cases a with
    | none => rfl
    | some a =>
        rw [Option.map_some, Option.bind_some]
        simp only [h' rest]
        cases b with
        | none => rfl
        | some b => rfl

/-- `NOT` and a factor. -/
theorem ReadsFactor.not (h : ReadsFactor ts o) : ReadsFactor (.not :: ts) (o.map .not) := by
  intro n rest hn
  rcases n with _ | n
  · omega
  · rw [List.cons_append] at hn ⊢
    rw [List.length_cons] at hn
    rw [factor, h n rest (by omega)]
    cases o with
    | none => rfl
    | some c => rfl

/-- One factor is a term. -/
theorem ReadsFactor.term (h : ReadsFactor ts o) : ReadsTerm ts o := by
  intro n rest hn
  rcases n with _ | n
  · omega
  · have hfactor := h n rest (by omega)
    rw [List.length_append] at hn
    refine ⟨n, by omega, ?_⟩
    rw [Sql.term, hfactor]
    cases o with
    | none => rfl
    | some c => rfl

/-- A term goes on with `AND` and a factor. -/
theorem ReadsTerm.and (h : ReadsTerm ts o) (h' : ReadsFactor us o') :
    ReadsTerm (ts ++ .and :: us) (o.bind (fun c => o'.map (fun d => .and c d))) := by
  intro n rest hn
  rw [List.append_assoc, List.cons_append] at hn ⊢
  rcases h n (.and :: (us ++ rest)) hn with ⟨m, hm, hterm⟩
  rw [List.length_cons] at hm
  rcases m with _ | m
  · omega
  · have hfactor := h' m rest (by omega)
    rw [List.length_append] at hm
    refine ⟨m, by omega, hterm.trans ?_⟩
    cases o with
    | none => rfl
    | some c =>
        rw [Option.bind_some, termRest, hfactor]
        cases o' with
        | none => rfl
        | some d => rfl

/-- One term is a condition. -/
theorem ReadsTerm.search (h : ReadsTerm ts o) : ReadsSearch ts o := by
  intro n rest hn hrest
  rcases n with _ | n
  · omega
  · rcases h n rest (by omega) with ⟨m, hm, hterm⟩
    rw [List.length_append] at hn
    refine ⟨n, by omega, ?_⟩
    rw [Sql.search, hterm]
    cases o with
    | none => rfl
    | some c =>
        -- No `AND` follows, so the term is over.
        rw [Option.bind_some, termRest_end (by omega) c hrest]
        rfl

/-- A condition goes on with `OR` and a term. -/
theorem ReadsSearch.or (h : ReadsSearch ts o) (h' : ReadsTerm us o') :
    ReadsSearch (ts ++ .or :: us) (o.bind (fun c => o'.map (fun d => .or c d))) := by
  intro n rest hn hrest
  rw [List.append_assoc, List.cons_append] at hn ⊢
  rcases h n (.or :: (us ++ rest)) hn (by simp) with ⟨m, hm, hsearch⟩
  rw [List.length_cons] at hm
  rcases m with _ | m
  · omega
  · rcases h' m rest (by omega) with ⟨k, hk, hterm⟩
    rw [List.length_append] at hm
    refine ⟨m, by omega, hsearch.trans ?_⟩
    cases o with
    | none => rfl
    | some c =>
        rw [Option.bind_some, searchRest, hterm]
        cases o' with
        | none => rfl
        | some d =>
            rw [Option.bind_some, termRest_end (by omega) d hrest]
            rfl

/-- A condition in parentheses is a factor. -/
theorem ReadsSearch.paren (h : ReadsSearch ts o) : ReadsFactor (.lparen :: ts ++ [.rparen]) o := by
  intro n rest hn
  rw [List.append_assoc, List.cons_append, List.singleton_append] at hn ⊢
  rcases n with _ | n
  · omega
  · rw [List.length_cons] at hn
    rcases h n (.rparen :: rest) (by omega) (by simp) with ⟨m, hm, hsearch⟩
    rw [factor, hsearch]
    cases o with
    | none => rfl
    | some c =>
        rw [Option.bind_some, searchRest_end (by omega) c (by simp)]
        rfl

/-- Nothing in parentheses is no factor. -/
theorem readsFactor_empty : ReadsFactor [.lparen, .rparen] none := by
  intro n rest hn
  -- No call on the way to the operand has enough fuel, or there is no operand.
  rcases n with _ | _ | _ | _ | n
  · rfl
  · rfl
  · rfl
  · rfl
  · rfl

/-- A parenthesis does not go on with a condition, so two factors in
    parentheses are not one. -/
theorem ReadsSearch.paren_append (h : ReadsSearch ts o) (us : List Token) :
    ReadsFactor (.lparen :: (ts ++ .lparen :: us) ++ [.rparen]) none := by
  intro n rest hn
  rw [List.append_assoc, List.cons_append, List.append_assoc, List.singleton_append,
    List.cons_append] at hn ⊢
  rcases n with _ | n
  · omega
  · rw [List.length_cons] at hn
    rcases h n (.lparen :: (us ++ .rparen :: rest)) (by omega) (by simp) with ⟨m, hm, hsearch⟩
    rw [factor, hsearch]
    cases o with
    | none => rfl
    | some c =>
        rw [Option.bind_some, searchRest_end (by omega) c (by simp)]
        rfl

theorem ReadsSearch.parseTokens_append (h : ReadsSearch ts o) (us : List Token) :
    Sql.parseTokens (ts ++ .lparen :: us) = none := by
  rcases h (4 * (ts ++ .lparen :: us).length + 3) (.lparen :: us) (Nat.le_refl _) (by simp) with
    ⟨m, hm, hsearch⟩
  unfold Sql.parseTokens
  rw [hsearch]
  cases o with
  | none => rfl
  | some c =>
      rw [Option.bind_some, searchRest_end (by omega) c (by simp)]

/-- Some tokens that are one condition. -/
theorem ReadsSearch.parseTokens (h : ReadsSearch ts o) : parseTokens ts = o := by
  rcases h (4 * ts.length + 3) [] (Nat.le_of_eq (by rw [List.append_nil])) (by simp) with
    ⟨m, hm, hsearch⟩
  rw [List.append_nil] at hsearch
  unfold Sql.parseTokens
  rw [hsearch]
  cases o with
  | none => rfl
  | some c =>
      rw [Option.bind_some, searchRest_end (by omega) c (by simp)]

end

end Sql

end BlogSample
