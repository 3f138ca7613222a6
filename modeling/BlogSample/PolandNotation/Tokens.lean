import BlogSample.DotNet
import BlogSample.Theory.Formula

/-!
# The Tokens of a Formula

`ToExpressionList`, which `Solution` and `Calculator` both have, line for
line: spaces go, a run of digits is one token, and every other character is a
token of its own. The `do` loop reads `formula[0]` before it looks at the
length, so a formula without anything but spaces throws.

A `string` is the list of its UTF-16 code units, and each unit is a token of
its own unless it is a digit. Here a unit is a character: `ofUnit` takes the
surrogates, which are no characters, to the last plane, where a string has
nothing else. So a character outside of the Basic Multilingual Plane is two
tokens.

## Main definitions

* `Text`: Strings.
* `ofUnit`: The code units of a string.
* `toExpressionList`: The tokens of a formula.
* `Literal`: Non-empty runs of digits.
* `Spaced`: A text that has given tokens, with spaces between them.
* `Prints`: The texts of a formula.

## Theorems

* `isNumber_ofUnit`: The digits among the code units.
* `tokens_flatten`: The tokens of a text, put together again.
* `toExpressionList_spaced`: The tokens of a text with spaces.
* `toExpressionList_prints`: The tokens of a formula's texts.
-/

namespace BlogSample

namespace PolandNotation

open DotNet

/-- A `string`, one element for each of its code units. -/
abbrev Text := List Char

/-- A code unit. The characters of the last plane stand for the surrogates. -/
def ofUnit (u : UInt16) : Char :=
  if 0xD800 ≤ u.toNat ∧ u.toNat ≤ 0xDFFF then Char.ofNat (0x100000 + u.toNat)
  else Char.ofNat u.toNat

/-- `IsNumber(c)`. -/
def isNumber (c : Char) : Bool :=
  c ≥ '0' && c ≤ '9'

/-- The inner `while` loop, which appends digits to `num`. -/
def readNumber : Text → Text → Text × Text
  | num, [] => (num, [])
  | num, c :: rest => if isNumber c then readNumber (num ++ [c]) rest else (num, c :: rest)

/-- The `do` loop on what is left of the formula. Every round takes at least
    one character. -/
def tokens : Nat → Text → List Text
  | 0, _ => []
  | _ + 1, [] => []
  | fuel + 1, c :: rest =>
      if ¬ isNumber c then [c] :: tokens fuel rest
      else (readNumber [] (c :: rest)).1 :: tokens fuel (readNumber [] (c :: rest)).2

/-- `ToExpressionList(formula)`. -/
def toExpressionList (formula : Text) : Except Exn (List Text) :=
  match formula.filter (· ≠ ' ') with
  | [] => throw .indexOutOfRange
  | c :: rest => pure (tokens (c :: rest).length (c :: rest))

/-- A run of digits. -/
structure Literal where
  digits : Text
  ne : digits ≠ []
  all : ∀ c ∈ digits, isNumber c = true

/-- The number a literal stands for. -/
def Literal.value (n : Literal) : Nat := Nat.ofDigitChars 10 n.digits 0

/-- The texts that have the given tokens, with any number of spaces before
    and after each of them. -/
inductive Spaced : List Text → Text → Prop
  | nil (k : Nat) : Spaced [] (List.replicate k ' ')
  | cons (k : Nat) (token : Text) (ts : List Text) (s : Text) :
      Spaced ts s → Spaced (token :: ts) (List.replicate k ' ' ++ (token ++ s))

section Texts

variable {ω : Type} (char : ω → Char)

/-- The text of a symbol, by the characters of the operators. -/
def text : Symbol Literal ω → Text
  | .num n => n.digits
  | .oper o => [char o]
  | .lparen => ['(']
  | .rparen => [')']

@[simp]
theorem text_num (n : Literal) : text char (.num n) = n.digits := rfl

@[simp]
theorem text_oper (o : ω) : text char (.oper o) = [char o] := rfl

@[simp]
theorem text_lparen : text char .lparen = ['('] := rfl

@[simp]
theorem text_rparen : text char .rparen = [')'] := rfl

/-- The texts of a formula: its symbols, and spaces anywhere but inside of a
    literal. -/
def Prints (f : Formula Literal ω) (s : Text) : Prop :=
  Spaced (f.symbols.map (text char)) s

end Texts

/-! ### Code units -/

theorem toNat_ofNat {n : Nat} (h : n.isValidChar) : (Char.ofNat n).toNat = n := by
  unfold Char.ofNat
  rw [dif_pos h]
  rfl

theorem ofUnit_toNat (u : UInt16) : (ofUnit u).toNat =
    if 0xD800 ≤ u.toNat ∧ u.toNat ≤ 0xDFFF then 0x100000 + u.toNat else u.toNat := by
  have hu : u.toNat < 65536 := u.toNat_lt
  unfold ofUnit
  by_cases h : 0xD800 ≤ u.toNat ∧ u.toNat ≤ 0xDFFF
  · rw [if_pos h, if_pos h, toNat_ofNat (Or.inr (by omega))]
  · rw [if_neg h, if_neg h, toNat_ofNat (by unfold Nat.isValidChar; omega)]

/-- Different units are different characters, so it does not matter whether
    units or characters are compared. -/
theorem ofUnit_injective : Function.Injective ofUnit := by
  intro u u' h
  have hnat : (ofUnit u).toNat = (ofUnit u').toNat := by rw [h]
  rw [ofUnit_toNat, ofUnit_toNat] at hnat
  have hu : u.toNat < 65536 := u.toNat_lt
  have hu' : u'.toNat < 65536 := u'.toNat_lt
  refine UInt16.toNat_inj.mp ?_
  split at hnat <;> split at hnat <;> omega

/-- The digits are the units of the ASCII digits. -/
theorem isNumber_ofUnit (u : UInt16) :
    isNumber (ofUnit u) = true ↔ '0'.toNat ≤ u.toNat ∧ u.toNat ≤ '9'.toNat := by
  have hnum : isNumber (ofUnit u) = true ↔
      '0'.toNat ≤ (ofUnit u).toNat ∧ (ofUnit u).toNat ≤ '9'.toNat := by
    unfold isNumber
    rw [Bool.and_eq_true, decide_eq_true_iff, decide_eq_true_iff]
    exact Iff.rfl
  rw [hnum, ofUnit_toNat]
  change 48 ≤ _ ∧ _ ≤ 57 ↔ 48 ≤ _ ∧ _ ≤ 57
  split <;> omega

/-- The two units of a character outside of the Basic Multilingual Plane. -/
example : toExpressionList ([0xD83D, 0xDE00].map ofUnit) =
    .ok [[ofUnit 0xD83D], [ofUnit 0xDE00]] := by
  decide +kernel

/-! ### Reading digits -/

theorem readNumber_append (ds : Text) (hds : ∀ c ∈ ds, isNumber c = true) (num rest : Text)
    (hrest : ∀ c ∈ rest.head?, isNumber c = false) :
    readNumber num (ds ++ rest) = (num ++ ds, rest) := by
  induction ds generalizing num with
  | nil =>
      rw [List.nil_append, List.append_nil]
      cases rest with
      | nil => rfl
      | cons c rest =>
          rw [readNumber, hrest c rfl]
          rfl
  | cons d ds ih =>
      rw [List.cons_append, readNumber, if_pos (hds d List.mem_cons_self),
        ih (fun c hc => hds c (List.mem_cons_of_mem d hc)), List.append_assoc]
      rfl

/-- What the inner loop reads is digits, and it stops at something else. -/
theorem readNumber_spec (s : Text) : ∀ num : Text, ∃ ds rest, s = ds ++ rest ∧
    readNumber num s = (num ++ ds, rest) ∧ (∀ c ∈ ds, isNumber c = true) ∧
    ∀ c ∈ rest.head?, isNumber c = false := by
  induction s with
  | nil =>
      intro num
      refine ⟨[], [], rfl, ?_, fun c hc => absurd hc List.not_mem_nil, fun c hc => by cases hc⟩
      rw [List.append_nil]
      rfl
  | cons c s ih =>
      intro num
      -- Digits are taken as long as there are any.
      by_cases hc : isNumber c = true
      · rcases ih (num ++ [c]) with ⟨ds, rest, hs, hread, hds, hrest⟩
        refine ⟨c :: ds, rest, by rw [hs, List.cons_append], ?_, ?_, hrest⟩
        · rw [readNumber, if_pos hc, hread, List.append_assoc]
          rfl
        · intro d hd
          rcases List.mem_cons.mp hd with hd | hd
          · rw [hd]
            exact hc
          · exact hds d hd
      · refine ⟨[], c :: s, rfl, ?_, fun d hd => absurd hd List.not_mem_nil, ?_⟩
        · rw [readNumber, if_neg hc, List.append_nil]
        · intro d hd
          rw [← Option.some.inj hd]
          exact Bool.not_eq_true _ ▸ hc

/-- The tokens of a text, put together again, are the text. -/
theorem tokens_flatten (fuel : Nat) :
    ∀ s : Text, s.length ≤ fuel → (tokens fuel s).flatten = s := by
  induction fuel with
  | zero =>
      intro s hs
      rw [List.length_eq_zero_iff.mp (Nat.le_zero.mp hs)]
      rfl
  | succ fuel ih =>
      intro s hs
      cases s with
      | nil => rfl
      | cons c rest =>
          rw [tokens]
          by_cases hc : isNumber c = true
          · rw [if_neg (fun h => h hc)]
            rcases readNumber_spec rest [c] with ⟨ds, rest', hs', hread, -, -⟩
            have hnum : readNumber [] (c :: rest) = (c :: ds, rest') := by
              rw [readNumber, if_pos hc]
              exact hread
            rw [hnum, List.flatten_cons, ih rest', hs']
            · rfl
            · rw [List.length_cons, hs', List.length_append] at hs
              omega
          · rw [if_pos hc, List.flatten_cons, ih rest (Nat.le_of_succ_le_succ hs)]
            rfl

/-! ### The tokens of a list of symbols -/

section Symbols

variable {ω : Type} {char : ω → Char} (hchar : ∀ o, isNumber (char o) = false)
include hchar

/-- After an operand no digit comes next. -/
theorem head_not_number {s : List (Symbol Literal ω)} (h : Accepts false s) :
    ∀ c ∈ (s.map (text char)).flatten.head?, isNumber c = false := by
  intro c hc
  cases s with
  | nil => cases hc
  | cons a s =>
      cases a with
      | num n => exact absurd h id
      | lparen => exact absurd h id
      | oper o =>
          rw [← Option.some.inj hc]
          exact hchar o
      | rparen =>
          rw [← Option.some.inj hc]
          decide

/-- Reading the text of alternating symbols gives their texts again. -/
theorem tokens_symbols (s : List (Symbol Literal ω)) : ∀ (b : Bool) (fuel : Nat), Accepts b s →
    (s.map (text char)).flatten.length ≤ fuel →
    tokens fuel (s.map (text char)).flatten = s.map (text char) := by
  induction s with
  | nil =>
      intro b fuel _ _
      cases fuel with
      | zero => rfl
      | succ fuel => rfl
  | cons a s ih =>
      -- A symbol of one character that is no digit.
      have hone : ∀ (c : Char) (b : Bool) (fuel : Nat), isNumber c = false → Accepts b s →
          (([c] :: s.map (text char)).flatten).length ≤ fuel →
          tokens fuel ([c] :: s.map (text char)).flatten = [c] :: s.map (text char) := by
        intro c b fuel hc hacc hlen
        cases fuel with
        | zero => exact absurd hlen (by simp)
        | succ fuel =>
            rw [List.flatten_cons, List.cons_append, List.nil_append, tokens,
              if_pos (by rw [hc]; exact Bool.false_ne_true)]
            rw [ih b fuel hacc (Nat.le_of_succ_le_succ hlen)]
      intro b fuel hacc hlen
      cases a with
      | oper o =>
          cases b with
          | true => exact absurd hacc id
          | false => exact hone (char o) true fuel (hchar o) hacc hlen
      | lparen =>
          cases b with
          | true => exact hone '(' true fuel (by decide) hacc hlen
          | false => exact absurd hacc id
      | rparen =>
          cases b with
          | true => exact absurd hacc id
          | false => exact hone ')' false fuel (by decide) hacc hlen
      | num n =>
          cases b with
          | false => exact absurd hacc id
          | true =>
              have hread := readNumber_append n.digits n.all [] _ (head_not_number hchar hacc)
              rw [List.map_cons, List.flatten_cons] at hlen ⊢
              change tokens fuel (n.digits ++ _) = n.digits :: _
              change (n.digits ++ _).length ≤ fuel at hlen
              cases hd : n.digits with
              | nil => exact absurd hd n.ne
              | cons d ds =>
                  have hdig : isNumber d = true := n.all d (hd ▸ List.mem_cons_self)
                  rw [hd] at hread hlen
                  cases fuel with
                  | zero => exact absurd hlen (by simp)
                  | succ fuel =>
                      have hshort : (s.map (text char)).flatten.length ≤ fuel := by
                        rw [List.length_append, List.length_cons] at hlen
                        omega
                      rw [List.cons_append, tokens, if_neg (fun h => h hdig), ← List.cons_append,
                        hread, ih false fuel hacc hshort]
                      rfl

end Symbols

/-! ### Spaces -/

/-- The text without any spaces. -/
theorem spaced_flatten (ts : List Text) : Spaced ts ts.flatten := by
  induction ts with
  | nil => exact .nil 0
  | cons token ts ih => exact .cons 0 token ts _ ih

/-- Without the spaces a text is its tokens. -/
theorem Spaced.filter {ts : List Text} {s : Text} (h : Spaced ts s)
    (hts : ∀ t ∈ ts, ∀ c ∈ t, c ≠ ' ') : s.filter (· ≠ ' ') = ts.flatten := by
  induction h with
  | nil k =>
      refine List.filter_eq_nil_iff.mpr ?_
      intro c hc
      rw [List.eq_of_mem_replicate hc]
      decide
  | cons k token ts s _ ih =>
      have htoken : token.filter (· ≠ ' ') = token :=
        List.filter_eq_self.mpr (fun c hc => decide_eq_true (hts token List.mem_cons_self c hc))
      have hspaces : (List.replicate k ' ').filter (· ≠ ' ') = [] := by
        refine List.filter_eq_nil_iff.mpr ?_
        intro c hc
        rw [List.eq_of_mem_replicate hc]
        decide
      rw [List.filter_append, List.filter_append, htoken, hspaces, List.nil_append,
        ih (fun t ht => hts t (List.mem_cons_of_mem token ht)), List.flatten_cons]

theorem isNumber_ne_space {c : Char} (h : isNumber c = true) : c ≠ ' ' := by
  intro hc
  rw [hc] at h
  cases h

/-- No symbol has a space in it, if no operator is written as one. -/
theorem text_ne_space {ω : Type} {char : ω → Char} (hspace : ∀ o, char o ≠ ' ')
    (a : Symbol Literal ω) : ∀ c ∈ text char a, c ≠ ' ' := by
  intro c hc
  cases a with
  | num n => exact isNumber_ne_space (n.all c hc)
  | oper o =>
      rw [List.mem_singleton.mp hc]
      exact hspace o
  | lparen =>
      rw [List.mem_singleton.mp hc]
      decide
  | rparen =>
      rw [List.mem_singleton.mp hc]
      decide

theorem text_ne_nil {ω : Type} (char : ω → Char) (a : Symbol Literal ω) : text char a ≠ [] := by
  cases a with
  | num n => exact n.ne
  | oper o => exact List.cons_ne_nil _ _
  | lparen => exact List.cons_ne_nil _ _
  | rparen => exact List.cons_ne_nil _ _

/-- The tokens of a text with the given symbols. -/
theorem toExpressionList_spaced {ω : Type} {char : ω → Char}
    (hchar : ∀ o, isNumber (char o) = false) (hspace : ∀ o, char o ≠ ' ')
    {s : List (Symbol Literal ω)} (hacc : Accepts true s)
    {formula : Text} (h : Spaced (s.map (text char)) formula) :
    toExpressionList formula = .ok (s.map (text char)) := by
  have hfilter : formula.filter (· ≠ ' ') = (s.map (text char)).flatten := by
    refine h.filter ?_
    intro t ht
    rcases List.mem_map.mp ht with ⟨a, -, rfl⟩
    exact text_ne_space hspace a
  unfold toExpressionList
  rw [hfilter]
  have htokens := tokens_symbols hchar s true _ hacc (Nat.le_refl _)
  cases hs : (s.map (text char)).flatten with
  | nil =>
      cases s with
      | nil => exact absurd hacc id
      | cons a s => exact absurd (List.append_eq_nil_iff.mp hs).1 (text_ne_nil char a)
  | cons c rest =>
      rw [hs] at htokens
      rw [← htokens]
      rfl

/-- The tokens of a text of a formula. -/
theorem toExpressionList_prints {ω : Type} {char : ω → Char}
    (hchar : ∀ o, isNumber (char o) = false) (hspace : ∀ o, char o ≠ ' ')
    {f : Formula Literal ω} {s : Text} (h : Prints char f s) :
    toExpressionList s = .ok (f.symbols.map (text char)) := by
  refine toExpressionList_spaced hchar hspace ?_ h
  have hacc := (accepts_symbols f []).mpr trivial
  rw [List.append_nil] at hacc
  exact hacc

end PolandNotation

end BlogSample
