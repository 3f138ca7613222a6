import Mathlib.Data.List.Basic

/-!
# Words of SQL

How the text of a search condition falls into tokens. The lexer goes through
the text once and remembers what it is in the middle of. What cannot be
continued with the next character is a token, and the next one starts there,
so each token is as long as it can be.

`AND`, `OR` and `NOT` are keywords, however they are capitalised. Dialects
differ in which further words are reserved, so these are a parameter. A
character outside of ASCII may be a part of a word. A comment goes to the end
of its line. What is no token of any kind is `bad`.

## Main definitions

* `Token`: The tokens of a search condition.
* `IsReserved`: A word that is no name.
* `classify`: The token that a word is.
* `lex`: The tokens of a text.

## Theorems

* `lex_word`: A word, up to where it ends.
* `lex_compare`: A comparison operator.
* `classify_name`: A name, or not.
* `lex_digits`: A number.
-/

namespace BlogSample

namespace Sql

/-- The comparison operators. -/
inductive CompareOp where
  | eq
  | ne
  | lt
  | le
  | gt
  | ge
  deriving DecidableEq, Repr

inductive Token where
  | word (w : List Char)
  | number (n : Nat)
  | string (s : List Char)
  | compare (op : CompareOp)
  | minus
  | lparen
  | rparen
  | and
  | or
  | not
  | bad
  deriving DecidableEq, Repr

/-- Letters, digits and underscores, and whatever is not ASCII. -/
def isWordChar (c : Char) : Bool :=
  c.isAlphanum || c = '_' || 127 < c.toNat

/-- The character around a string. -/
def apostrophe : Char :=
  Char.ofNat 39

/-- The keyword that a word is. -/
def keyword (w : List Char) : Option Token :=
  if w.map Char.toUpper = ['A', 'N', 'D'] then some .and
  else if w.map Char.toUpper = ['O', 'R'] then some .or
  else if w.map Char.toUpper = ['N', 'O', 'T'] then some .not
  else none

/-- The truth value that a word is where an operand stands, however it is
    capitalised. -/
def truthValue (w : List Char) : Option Bool :=
  if w.map Char.toUpper = ['T', 'R', 'U', 'E'] then some true
  else if w.map Char.toUpper = ['F', 'A', 'L', 'S', 'E'] then some false
  else none

/-- What the lexer is in the middle of. What has been read of a word or of a
    string is kept in reverse. -/
inductive Mode where
  | gap
  | word (read : List Char)
  | less
  | greater
  | minus
  | string (read : List Char)
  | quote (read : List Char)
  | comment
  deriving DecidableEq, Repr

section

variable (reserved : List Char → Bool)

/-- A word that is no name. -/
def IsReserved (w : List Char) : Prop :=
  (keyword w).isSome ∨ reserved w = true

instance (w : List Char) : Decidable (IsReserved reserved w) :=
  inferInstanceAs (Decidable (_ ∨ _))

/-- The token that a word is. -/
def classify (w : List Char) : Token :=
  if (w.headD 'a').isDigit then
    if w.all Char.isDigit then .number (Nat.ofDigitChars 10 w 0) else .bad
  else
    match keyword w with
    | some t => t
    | none => if reserved w then .bad else .word w

/-- A character between tokens. -/
def begin (c : Char) : List Token × Mode :=
  if isWordChar c then ([], .word [c])
  else if c = '(' then ([.lparen], .gap)
  else if c = ')' then ([.rparen], .gap)
  else if c = '=' then ([.compare .eq], .gap)
  else if c = '<' then ([], .less)
  else if c = '>' then ([], .greater)
  else if c = '-' then ([], .minus)
  else if c = apostrophe then ([], .string [])
  else if c.isWhitespace then ([], .gap)
  else ([.bad], .gap)

/-- A token ends, and the next character is one between tokens. -/
def emit (t : Token) (c : Char) : List Token × Mode :=
  (t :: (begin c).1, (begin c).2)

/-- The tokens that one more character ends. -/
def step : Mode → Char → List Token × Mode
  | .gap, c => begin c
  | .word read, c =>
      if isWordChar c then ([], .word (c :: read)) else emit (classify reserved read.reverse) c
  | .less, c =>
      if c = '=' then ([.compare .le], .gap)
      else if c = '>' then ([.compare .ne], .gap)
      else emit (.compare .lt) c
  | .greater, c => if c = '=' then ([.compare .ge], .gap) else emit (.compare .gt) c
  | .minus, c => if c = '-' then ([], .comment) else emit .minus c
  | .string read, c => if c = apostrophe then ([], .quote read) else ([], .string (c :: read))
  -- Two quotes in a string are one character of it.
  | .quote read, c =>
      if c = apostrophe then ([], .string (c :: read)) else emit (.string read.reverse) c
  | .comment, c => if c = '\n' then ([], .gap) else ([], .comment)

/-- The token that the end of the text ends. -/
def finish : Mode → List Token
  | .gap => []
  | .word read => [classify reserved read.reverse]
  | .less => [.compare .lt]
  | .greater => [.compare .gt]
  | .minus => [.minus]
  | .string _ => [.bad]
  | .quote read => [.string read.reverse]
  | .comment => []

/-- The tokens of a text. -/
def lex : Mode → List Char → List Token
  | m, [] => finish reserved m
  | m, c :: cs => (step reserved m c).1 ++ lex (step reserved m c).2 cs

variable {reserved}

theorem lex_cons (m : Mode) (c : Char) (cs : List Char) :
    lex reserved m (c :: cs) = (step reserved m c).1 ++ lex reserved (step reserved m c).2 cs :=
  rfl

/-- A token that ends leaves its last character to the next one. -/
theorem lex_emit (t : Token) (c : Char) (cs : List Char) :
    (emit t c).1 ++ lex reserved (emit t c).2 cs = t :: lex reserved .gap (c :: cs) :=
  rfl

/-- Some characters of a word. -/
theorem lex_word_append {w : List Char} (hw : ∀ c ∈ w, isWordChar c = true) (rest : List Char) :
    ∀ read, lex reserved (.word read) (w ++ rest) =
      lex reserved (.word (w.reverse ++ read)) rest := by
  induction w with
  | nil => exact fun _ => rfl
  | cons c w ih =>
      intro read
      have hc : step reserved (.word read) c = ([], .word (c :: read)) :=
        if_pos (hw c List.mem_cons_self)
      rw [List.cons_append, lex_cons, hc, List.nil_append,
        ih (fun d hd => hw d (List.mem_cons_of_mem c hd)), List.reverse_cons, List.append_assoc]
      rfl

/-- A word, up to where it ends. -/
theorem lex_word {w : List Char} (hne : w ≠ []) (hw : ∀ c ∈ w, isWordChar c = true) {d : Char}
    (hd : isWordChar d = false) (rest : List Char) :
    lex reserved .gap (w ++ d :: rest) = classify reserved w :: lex reserved .gap (d :: rest) := by
  rcases w with _ | ⟨c, w⟩
  · exact absurd rfl hne
  · have hc : step reserved .gap c = ([], .word [c]) := if_pos (hw c List.mem_cons_self)
    have hend : step reserved (.word (w.reverse ++ [c])) d =
        emit (classify reserved (c :: w)) d := by
      rw [step, if_neg (by simp only [hd, Bool.false_eq_true, not_false_eq_true]),
        List.reverse_append, List.reverse_reverse]
      rfl
    rw [List.cons_append, lex_cons, hc, List.nil_append,
      lex_word_append (fun d hd => hw d (List.mem_cons_of_mem c hd)), lex_cons, hend, lex_emit]

/-- The texts of the comparison operators. -/
def CompareOp.text : CompareOp → List Char
  | .eq => ['=']
  | .ne => ['<', '>']
  | .lt => ['<']
  | .le => ['<', '=']
  | .gt => ['>']
  | .ge => ['>', '=']

/-- A comparison operator, in front of what does not continue one. -/
theorem lex_compare (op : CompareOp) {t : List Char} (heq : t.head? ≠ some '=')
    (hgt : t.head? ≠ some '>') :
    lex reserved .gap (op.text ++ t) = .compare op :: lex reserved .gap t := by
  have hless : lex reserved .less t = .compare .lt :: lex reserved .gap t := by
    rcases t with _ | ⟨d, t⟩
    · rfl
    · have hstep : step reserved .less d = emit (.compare .lt) d := by
        rw [step, if_neg (fun h => heq (congrArg some h)), if_neg (fun h => hgt (congrArg some h))]
      rw [lex_cons, hstep, lex_emit]
  have hgreater : lex reserved .greater t = .compare .gt :: lex reserved .gap t := by
    rcases t with _ | ⟨d, t⟩
    · rfl
    · have hstep : step reserved .greater d = emit (.compare .gt) d :=
        if_neg (fun h => heq (congrArg some h))
      rw [lex_cons, hstep, lex_emit]
  cases op with
  | eq => rfl
  | ne => rfl
  | le => rfl
  | ge => rfl
  | lt => exact hless
  | gt => exact hgreater

/-- A minus sign, in front of what is none. -/
theorem lex_minus {t : List Char} (ht : t.head? ≠ some '-') :
    lex reserved .gap ('-' :: t) = .minus :: lex reserved .gap t := by
  rcases t with _ | ⟨d, t⟩
  · rfl
  · have hstep : step reserved .minus d = emit .minus d :=
      if_neg (fun h => ht (congrArg some h))
    change lex reserved .minus (d :: t) = _
    rw [lex_cons, hstep, lex_emit]

/-- The keywords. -/
theorem keyword_mem {w : List Char} {t : Token} (h : keyword w = some t) :
    t ∈ [.and, .or, .not, .bad] := by
  unfold keyword at h
  split_ifs at h
  all_goals
    cases h
    decide

/-- A word that does not start with a digit is a name or reserved. -/
theorem classify_name {w : List Char} (hw : (w.headD 'a').isDigit = false) :
    (IsReserved reserved w ∧ classify reserved w ∈ [.and, .or, .not, .bad]) ∨
      (¬ IsReserved reserved w ∧ classify reserved w = .word w) := by
  unfold classify IsReserved
  rw [if_neg (by simp only [hw, Bool.false_eq_true, not_false_eq_true])]
  cases hkey : keyword w with
  | some t =>
      exact Or.inl ⟨Or.inl rfl, keyword_mem hkey⟩
  | none =>
      by_cases hres : reserved w = true
      · refine Or.inl ⟨Or.inr hres, ?_⟩
        simp [hres]
      · refine Or.inr ⟨?_, ?_⟩
        · simp [hres]
        · simp [hres]

/-- A number has digits and nothing else. -/
theorem exists_toDigits (n : Nat) :
    ∃ c cs, Nat.toDigits 10 n = c :: cs ∧ ∀ d ∈ c :: cs, d.isDigit = true := by
  rcases hdigits : Nat.toDigits 10 n with _ | ⟨c, cs⟩
  · exact absurd hdigits Nat.toDigits_ne_nil
  · refine ⟨c, cs, rfl, fun d hd => ?_⟩
    exact Nat.isDigit_of_mem_toDigits (by decide) (by decide) (hdigits ▸ hd)

/-- A digit may be in a word. -/
theorem isWordChar_of_isDigit {c : Char} (h : c.isDigit = true) : isWordChar c = true := by
  unfold isWordChar Char.isAlphanum
  rw [h, Bool.or_true, Bool.true_or, Bool.true_or]

/-- Digits are a number. -/
theorem classify_digits (n : Nat) :
    classify reserved (Nat.toDigits 10 n) = .number n := by
  have hvalue : Nat.ofDigitChars 10 (Nat.toDigits 10 n) 0 = n := Nat.ofDigitChars_ten_toDigits
  rcases exists_toDigits n with ⟨c, cs, hdigits, hall⟩
  unfold classify
  rw [hvalue, hdigits, if_pos (show ((c :: cs).headD 'a').isDigit = true from
    hall c List.mem_cons_self), if_pos (List.all_eq_true.mpr hall)]

/-- The text of a number, up to where it ends. -/
theorem lex_digits (n : Nat) {d : Char} (hd : isWordChar d = false) (rest : List Char) :
    lex reserved .gap (Nat.toDigits 10 n ++ d :: rest) =
      .number n :: lex reserved .gap (d :: rest) := by
  rcases exists_toDigits n with ⟨c, cs, hdigits, hall⟩
  rw [lex_word Nat.toDigits_ne_nil (fun c hc => isWordChar_of_isDigit (hall c (hdigits ▸ hc))) hd,
    classify_digits]

end

end Sql

end BlogSample
