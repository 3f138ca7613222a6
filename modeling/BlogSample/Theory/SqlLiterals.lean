import BlogSample.Theory.SearchCondition
import BlogSample.Theory.Tally

/-!
# String Literals

How much of a text the string literals of its condition take up. A literal
starts and ends with a quote, and each quote in its contents is written twice.
No two literals share a character of the text, so the quotes of a text are at
least those that its literals take. A text with no more quotes than the
contents of its literals have has no literals at all.

## Main definitions

* `Cond.literals`: The contents of the literals of a condition, in order.
* `Cond.blank`: A condition up to the contents of its literals.
* `quotes`: The quotes that a literal takes.

## Theorems

* `lex_quotes`: The literals among the tokens take their quotes from the text.
* `parse_literals`: The literals of a condition are those among its tokens.
* `parse_quotes`: The literals of a condition take their quotes from the text.
-/

namespace BlogSample

namespace Sql

/-- The contents of a token that is a literal. -/
def Token.literal : Token → List (List Char)
  | .string s => [s]
  | _ => []

def Operand.literal : Operand → List (List Char)
  | .string s => [s]
  | _ => []

/-- The contents of the literals among some tokens. -/
def literals (ts : List Token) : List (List Char) :=
  ts.flatMap Token.literal

/-- The contents of the literals of a condition, from left to right. -/
def Cond.literals : Cond → List (List Char)
  | .compare _ a b => a.literal ++ b.literal
  | .not c => c.literals
  | .and c d => c.literals ++ d.literals
  | .or c d => c.literals ++ d.literals

def Operand.blank : Operand → Operand
  | .string _ => .string []
  | a => a

/-- A condition up to the contents of its literals. -/
def Cond.blank : Cond → Cond
  | .compare op a b => .compare op a.blank b.blank
  | .not c => .not c.blank
  | .and c d => .and c.blank d.blank
  | .or c d => .or c.blank d.blank

/-- The quotes that a literal takes. -/
def quotes (s : List Char) : Nat :=
  2 * s.count apostrophe + 2

/-- The quotes that have been read of a literal. -/
def Mode.quotes : Mode → Nat
  | .string read => 2 * read.count apostrophe + 1
  | .quote read => 2 * read.count apostrophe + 2
  | _ => 0

section

variable {reserved : List Char → Bool}

theorem literals_cons (t : Token) (ts : List Token) :
    literals (t :: ts) = t.literal ++ literals ts :=
  rfl

theorem literals_append (ts us : List Token) :
    literals (ts ++ us) = literals ts ++ literals us :=
  List.flatMap_append

/-- A word is no literal. -/
theorem classify_literal (w : List Char) : (classify reserved w).literal = [] := by
  unfold classify
  split
  · split
    · rfl
    · rfl
  · split
    · next t ht =>
        have hmem := keyword_mem ht
        simp only [List.mem_cons, List.not_mem_nil, or_false] at hmem
        rcases hmem with rfl | rfl | rfl | rfl
        · rfl
        · rfl
        · rfl
        · rfl
    · split
      · rfl
      · rfl

/-- Between tokens, a quote is the start of a literal. -/
theorem begin_quotes (c : Char) :
    literals (begin c).1 = [] ∧ (begin c).2.quotes ≤ [c].count apostrophe := by
  unfold begin
  split_ifs with hword hl hr heq hlt hgt hminus hquote hspace
  · exact ⟨rfl, Nat.zero_le _⟩
  · exact ⟨rfl, Nat.zero_le _⟩
  · exact ⟨rfl, Nat.zero_le _⟩
  · exact ⟨rfl, Nat.zero_le _⟩
  · exact ⟨rfl, Nat.zero_le _⟩
  · exact ⟨rfl, Nat.zero_le _⟩
  · exact ⟨rfl, Nat.zero_le _⟩
  · exact ⟨rfl, by rw [hquote]; decide⟩
  · exact ⟨rfl, Nat.zero_le _⟩
  · exact ⟨rfl, Nat.zero_le _⟩

/-- A token that ends takes the quotes that have been read of it. -/
theorem emit_quotes {t : Token} {n : Nat} (ht : tally quotes t.literal ≤ n) (c : Char) :
    tally quotes (literals (emit t c).1) + (emit t c).2.quotes ≤ n + [c].count apostrophe := by
  rcases begin_quotes c with ⟨hnone, hle⟩
  change tally quotes (literals (t :: (begin c).1)) + (begin c).2.quotes ≤ _
  rw [literals_cons, hnone, List.append_nil]
  omega

/-- One character more. -/
theorem step_quotes (m : Mode) (c : Char) :
    tally quotes (literals (step reserved m c).1) + (step reserved m c).2.quotes ≤
      m.quotes + [c].count apostrophe := by
  have hnone {t : Token} (ht : t.literal = []) : tally quotes t.literal ≤ 0 := by
    rw [ht]
    exact Nat.le_refl 0
  cases m with
  | gap =>
      -- Between two tokens nothing is read yet, so the character begins one.
      rcases begin_quotes c with ⟨hnone, hle⟩
      change tally quotes (literals (begin c).1) + (begin c).2.quotes ≤ _
      rw [hnone, tally_nil, Nat.zero_add]
      exact Nat.le_trans hle (Nat.le_add_left _ _)
  -- Whatever ends one of these tokens begins the next.
  | word read =>
      rw [step]
      split
      · exact Nat.zero_le _
      · exact emit_quotes (hnone (classify_literal _)) c
  | less =>
      rw [step]
      split_ifs
      · exact Nat.zero_le _
      · exact Nat.zero_le _
      · exact emit_quotes (hnone rfl) c
  | greater =>
      rw [step]
      split_ifs
      · exact Nat.zero_le _
      · exact emit_quotes (hnone rfl) c
  | minus =>
      rw [step]
      split_ifs
      · exact Nat.zero_le _
      · exact emit_quotes (hnone rfl) c
  | comment =>
      rw [step]
      split_ifs
      · exact Nat.zero_le _
      · exact Nat.zero_le _
  -- Within a string every character counts as it is read.
  | string read =>
      rw [step]
      split_ifs with hc
      · rw [hc]
        simp [literals, Mode.quotes]
      · simp [literals, Mode.quotes, List.count_cons_of_ne hc]
  | quote read =>
      rw [step]
      split_ifs with hc
      -- The second quote of two, which are one of the contents.
      · rw [hc]
        simp only [literals, List.flatMap_nil, tally_nil, Mode.quotes, List.count_cons_self]
        omega
      · refine emit_quotes ?_ c
        simp [Token.literal, quotes, Mode.quotes]

/-- The literals among the tokens of a text take their quotes from it. -/
theorem lex_quotes (s : List Char) : ∀ m : Mode,
    tally quotes (literals (lex reserved m s)) ≤ m.quotes + s.count apostrophe := by
  induction s with
  | nil =>
      intro m
      cases m with
      | word read =>
          change tally quotes (literals [classify reserved read.reverse]) ≤ _
          rw [literals_cons, classify_literal]
          exact Nat.zero_le _
      | quote read =>
          change 2 * read.reverse.count apostrophe + 2 + 0 ≤ 2 * read.count apostrophe + 2 + 0
          exact Nat.le_of_eq (by rw [List.count_reverse])
      | _ => exact Nat.zero_le _
  | cons c s ih =>
      intro m
      have hstep := @step_quotes reserved m c
      have hrest := ih (step reserved m c).2
      have hcount : (c :: s).count apostrophe = [c].count apostrophe + s.count apostrophe :=
        @List.count_append _ _ apostrophe [c] s
      rw [lex_cons, literals_append, tally_append, hcount]
      omega

/-- What has been read of some tokens has the literals that are not left. -/
def Takes (ls : List (List Char)) (o : Option (Cond × List Token)) : Prop :=
  ∀ c rest, o = some (c, rest) → ls = c.literals ++ literals rest

theorem takes_none (ls : List (List Char)) : Takes ls none := by
  intro c rest h
  cases h

/-- An operator takes what its second operand takes. -/
theorem Takes.operator {op : Cond → Cond → Cond} {t : Token} {us vs : List Token} {d b : Cond}
    {o o' : Option (Cond × List Token)} (ho : Takes (literals us) o) (hb : o = some (b, vs))
    (ht : t.literal = []) (hop : (op d b).literals = d.literals ++ b.literals)
    (ho' : Takes ((op d b).literals ++ literals vs) o') :
    Takes (d.literals ++ literals (t :: us)) o' := by
  intro c rest h
  have hrest := ho' c rest h
  rw [hop, List.append_assoc] at hrest
  rw [literals_cons, ht, List.nil_append, ho b vs hb]
  exact hrest

theorem operand_literals {ts rest : List Token} {a : Operand}
    (h : operand ts = some (a, rest)) : literals ts = a.literal ++ literals rest := by
  unfold operand at h
  split at h
  · cases h
    rfl
  · cases h
    rfl
  · cases h
    rfl
  · cases h
    rfl
  · cases h

theorem comparison_takes (ts : List Token) : Takes (literals ts) (comparison ts) := by
  intro c rest h
  unfold comparison at h
  split at h
  · next a op us ha =>
      split at h
      · next b vs hb =>
          cases h
          rw [operand_literals ha, literals_cons, operand_literals hb, Cond.literals,
            List.append_assoc]
          rfl
      · cases h
  · cases h

/-- What each function of the parser reads. -/
theorem parser_takes (n : Nat) :
    (∀ ts, Takes (literals ts) (search n ts)) ∧
    (∀ c ts, Takes (c.literals ++ literals ts) (searchRest n c ts)) ∧
    (∀ ts, Takes (literals ts) (term n ts)) ∧
    (∀ c ts, Takes (c.literals ++ literals ts) (termRest n c ts)) ∧
    ∀ ts, Takes (literals ts) (factor n ts) := by
  induction n with
  | zero =>
      exact ⟨fun _ => takes_none _, fun _ _ => takes_none _, fun _ => takes_none _,
        fun _ _ => takes_none _, fun _ => takes_none _⟩
  | succ n ih =>
      rcases ih with ⟨hsearch, hsearchRest, hterm, htermRest, hfactor⟩
      -- The five functions call each other with one unit of fuel less.
      refine ⟨fun ts c rest h => ?_, fun d ts c rest h => ?_, fun ts c rest h => ?_,
        fun d ts c rest h => ?_, fun ts c rest h => ?_⟩
      · rw [search] at h
        split at h
        · next d us hd =>
            rw [hterm ts d us hd]
            exact hsearchRest d us c rest h
        · cases h
      · rcases ts with _ | ⟨t, us⟩
        · cases h
          rfl
        · cases t with
          -- An `or` has no literal of its own, so those of its sides are all there is.
          | or =>
              rw [searchRest] at h
              split at h
              · next b vs hb =>
                  exact (hterm us).operator hb rfl rfl (hsearchRest (.or d b) vs) c rest h
              · cases h
          | _ =>
              cases h
              rfl
      · rw [term] at h
        split at h
        · next d us hd =>
            rw [hfactor ts d us hd]
            exact htermRest d us c rest h
        · cases h
      · rcases ts with _ | ⟨t, us⟩
        · cases h
          rfl
        · cases t with
          -- Likewise for an `and`.
          | and =>
              rw [termRest] at h
              split at h
              · next b vs hb =>
                  exact (hfactor us).operator hb rfl rfl (htermRest (.and d b) vs) c rest h
              · cases h
          | _ =>
              cases h
              rfl
      · rcases ts with _ | ⟨t, us⟩
        · cases h
        · cases t with
          | not =>
              rw [factor] at h
              split at h
              · next d vs hd =>
                  cases h
                  exact hfactor us d rest hd
              · cases h
          -- The parentheses have none either.
          | lparen =>
              rw [factor] at h
              split at h
              · next d vs hd =>
                  cases h
                  exact hsearch us c (.rparen :: rest) hd
              · cases h
          | _ => exact comparison_takes _ c rest h

/-- The literals of a condition are those among its tokens. -/
theorem parse_literals {s : List Char} {c : Cond} (h : parse reserved s = some c) :
    c.literals = literals (lex reserved .gap s) := by
  unfold parse parseTokens at h
  split at h
  · next d hd =>
      cases h
      have htakes := (parser_takes _).1 _ c [] hd
      rw [htakes]
      exact (List.append_nil _).symm
  · cases h

/-- The literals of a condition take their quotes from its text. -/
theorem parse_quotes {s : List Char} {c : Cond} (h : parse reserved s = some c) :
    tally quotes c.literals ≤ s.count apostrophe := by
  have hle := @lex_quotes reserved s .gap
  rw [parse_literals h]
  exact Nat.le_trans hle (Nat.le_of_eq (Nat.zero_add _))

end

end Sql

end BlogSample
