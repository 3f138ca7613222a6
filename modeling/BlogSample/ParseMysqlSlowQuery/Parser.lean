import BlogSample.Theory.Regex
import Mathlib.Logic.Function.Basic

/-!
# The Slow Query Log Parser

The script `parse_mysql_slow_query.py`. It goes through the lines of each file
with a dictionary for the current record and a list of the lines of the current
query. A `# Time` line writes the record if there is a query, and only then
starts with an empty one. The header lines set their fields, and the lines from
the start of a query on are collected. What is there at the end of a file is
written too.

The four patterns and what is done with the text of a line are given as a
`Script`, so that the loop can also be run on lines that carry their place in
the file. `python` is the script as it stands. `\d` of Python is any digit of
Unicode, of which there are more in each version, so these are a parameter.

## Main definitions

* `timePattern`, `userHostPattern`, `queryStatsPattern`, `queryStartPattern`:
  The patterns.
* `Script`: What the loop does with a line.
* `State.line`, `Script.file`, `Script.rows`: The loop.
* `python`: The script.

## Theorems

* `python_apart`: No line is matched by two patterns.
-/

namespace BlogSample

namespace ParseMysqlSlowQuery

open Regex

/-- A line of a file, with its line break. -/
abbrev Line := List Char

/-- The white space of Python. -/
def isSpace (c : Char) : Bool :=
  let n := c.toNat
  (9 ≤ n && n ≤ 13) || (28 ≤ n && n ≤ 32) || n == 0x85 || n == 0xA0 || n == 0x1680 ||
    (0x2000 ≤ n && n ≤ 0x200A) || n == 0x2028 || n == 0x2029 || n == 0x202F || n == 0x205F ||
    n == 0x3000

/-- `\s*`. -/
def spaces : Regex Char :=
  .star true isSpace

/-- `.`. -/
def dot (c : Char) : Bool :=
  c != '\n'

/-- A capital letter of a pattern that ignores case. Some letters outside of
    ASCII are variants of `I` and `S`. -/
def ignoreCase (letter c : Char) : Bool :=
  c.toUpper == letter || (letter == 'I' && (c.toNat == 0x130 || c.toNat == 0x131)) ||
    (letter == 'S' && c.toNat == 0x17F)

/-- A word in any capitals. -/
def keyword (w : List Char) : Regex Char :=
  concat (w.map (fun letter => .char (ignoreCase letter)))

section

variable (digit : Char → Bool)

/-- `#\s*Time\s*:\s*([\d\-TZ:]+)`. -/
def timePattern : Regex Char :=
  concat ([literal "#".toList, spaces, literal "Time".toList, spaces, literal ":".toList, spaces] ++
    [.group (plus (fun c => digit c || "-TZ:".toList.contains c))])

/-- `#\s*User@Host\s*:\s*(.*?)\s*\[.*?\]\s*@\s*\[(.*?)\]\s*Id\s*:\s*(.*\d)`. -/
def userHostPattern : Regex Char :=
  concat ([literal "#".toList, spaces, literal "User@Host".toList, spaces, literal ":".toList,
    spaces, .group (.star false dot), spaces, literal "[".toList, .star false dot,
    literal "]".toList, spaces, literal "@".toList, spaces, literal "[".toList,
    .group (.star false dot), literal "]".toList, spaces, literal "Id".toList, spaces,
    literal ":".toList, spaces] ++ [.group (.seq (.star true dot) (.char digit))])

/-- `#\s*Query_time\s*:\s*([\d.]+)\s*Lock_time\s*:\s*([\d.]+)\s*Rows_sent\s*:\s*(\d+)`,
    and `\s*Rows_examined\s*:\s*(\d+)` after it. -/
def queryStatsPattern : Regex Char :=
  concat ([literal "#".toList, spaces, literal "Query_time".toList, spaces, literal ":".toList,
    spaces, .group (plus (fun c => digit c || c == '.')), spaces, literal "Lock_time".toList,
    spaces, literal ":".toList, spaces, .group (plus (fun c => digit c || c == '.')), spaces,
    literal "Rows_sent".toList, spaces, literal ":".toList, spaces, .group (plus digit), spaces,
    literal "Rows_examined".toList, spaces, literal ":".toList, spaces] ++ [.group (plus digit)])

end

/-- `^(\/\*|SELECT|INSERT|UPDATE|DELETE).*`. -/
def queryStartPattern : Regex Char :=
  .seq (.group (.alt (literal "/*".toList) (.alt (keyword "SELECT".toList)
    (.alt (keyword "INSERT".toList) (.alt (keyword "UPDATE".toList)
      (keyword "DELETE".toList)))))) (.star true dot)

/-- The keys of the dictionary, which are the columns of the output. -/
inductive Field where
  | time
  | user
  | host
  | id
  | queryTime
  | lockTime
  | rowsSent
  | rowsExamined
  | query
  deriving DecidableEq, Repr

/-- The columns, in order. -/
def columns : List Field :=
  [.time, .user, .host, .id, .queryTime, .lockTime, .rowsSent, .rowsExamined, .query]

/-- The title of a column. -/
def Field.title : Field → List Char
  | .time => "Time".toList
  | .user => "User".toList
  | .host => "Host".toList
  | .id => "Id".toList
  | .queryTime => "Query_Time".toList
  | .lockTime => "Lock_Time".toList
  | .rowsSent => "Rows_Sent".toList
  | .rowsExamined => "Rows_Examined".toList
  | .query => "Query".toList

/-- A dictionary: the text for each key it has. -/
abbrev Record (τ : Type) := Field → Option τ

/-- Does a dictionary have a key? -/
def Record.nonempty {τ : Type} (record : Record τ) : Bool :=
  columns.any (fun f => (record f).isSome)

/-- What the loop does with a line: what each pattern captures, whether a query
    starts, the stripped line, and the text of a query from its lines. -/
structure Script (ℓ τ : Type) where
  time : ℓ → Option τ
  userHost : ℓ → Option (τ × τ × τ)
  queryStats : ℓ → Option (τ × τ × τ × τ)
  queryStart : ℓ → Bool
  strip : ℓ → τ
  join : List τ → τ

/-- The variables of the loop, and the rows that have been written. -/
structure State (τ : Type) where
  record : Record τ
  query : List τ
  rows : List (Record τ)

section

variable {ℓ τ : Type} (S : Script ℓ τ)

/-- A file is opened. -/
def State.opened (rows : List (Record τ)) : State τ where
  record := fun _ => none
  query := []
  rows := rows

/-- `if current_record and current_query`. -/
def State.collected (s : State τ) : Bool :=
  s.record.nonempty && !s.query.isEmpty

/-- The record with its query, as it is written. -/
def State.row (s : State τ) : Record τ :=
  Function.update s.record .query (some (S.join s.query))

/-- A line matches the pattern of a timestamp, or not. -/
def State.timeMatch (s : State τ) (line : ℓ) : State τ :=
  match S.time line with
  | some time =>
      -- The record is only cleared if it is written.
      let s := if s.collected then State.opened (s.rows ++ [s.row S]) else s
      { s with record := Function.update s.record .time (some time) }
  | none => s

def State.userHostMatch (s : State τ) (line : ℓ) : State τ :=
  match S.userHost line with
  | some (user, host, id) =>
      { s with
        record := Function.update (Function.update (Function.update s.record .user (some user))
          .host (some host)) .id (some id) }
  | none => s

def State.queryStatsMatch (s : State τ) (line : ℓ) : State τ :=
  match S.queryStats line with
  | some (queryTime, lockTime, rowsSent, rowsExamined) =>
      { s with
        record := Function.update (Function.update (Function.update (Function.update s.record
          .queryTime (some queryTime)) .lockTime (some lockTime)) .rowsSent (some rowsSent))
          .rowsExamined (some rowsExamined) }
  | none => s

/-- Lines are collected from the start of a query on. -/
def State.collect (s : State τ) (line : ℓ) : State τ :=
  if S.queryStart line || !s.query.isEmpty then { s with query := s.query ++ [S.strip line] }
  else s

/-- The body of the loop. -/
def State.line (s : State τ) (line : ℓ) : State τ :=
  (((s.timeMatch S line).userHostMatch S line).queryStatsMatch S line).collect S line

/-- The end of a file. -/
def State.finish (s : State τ) : List (Record τ) :=
  if s.collected then s.rows ++ [s.row S] else s.rows

/-- The rows after one more file. -/
def Script.file (rows : List (Record τ)) (lines : List ℓ) : List (Record τ) :=
  (lines.foldl (State.line S) (State.opened rows)).finish S

/-- The rows of some files. -/
def Script.rows (files : List (List ℓ)) : List (Record τ) :=
  files.foldl (Script.file S) []

end

/-- `strip()`. -/
def strip (s : List Char) : List Char :=
  ((s.dropWhile isSpace).reverse.dropWhile isSpace).reverse

/-- `group(i)`. -/
def group (captures : List (List Char)) (i : Nat) : List Char :=
  captures.getD (i - 1) []

/-- The script. -/
def python (digit : Char → Bool) : Script Line (List Char) where
  time := fun line => ((timePattern digit).captures line).map (fun m => group m 1)
  userHost := fun line =>
    ((userHostPattern digit).captures line).map (fun m => (group m 1, group m 2, group m 3))
  queryStats := fun line =>
    ((queryStatsPattern digit).captures line).map
      (fun m => (group m 1, group m 2, group m 3, group m 4))
  queryStart := fun line => (queryStartPattern.captures line).isSome
  strip := strip
  join := fun lines => strip ([' '].intercalate lines)

/-- No line is matched by two patterns. -/
structure Script.Apart {ℓ τ : Type} (S : Script ℓ τ) : Prop where
  time (line : ℓ) : (S.time line).isSome = true →
    S.userHost line = none ∧ S.queryStats line = none ∧ S.queryStart line = false
  userHost (line : ℓ) : (S.userHost line).isSome = true →
    S.time line = none ∧ S.queryStats line = none ∧ S.queryStart line = false
  queryStats (line : ℓ) : (S.queryStats line).isSome = true →
    S.time line = none ∧ S.userHost line = none ∧ S.queryStart line = false

/-- The first letter of a header, which tells which one it is. -/
def headerLetter : Line → Option Char
  | '#' :: s => (s.dropWhile isSpace).head?
  | _ => none

/-- What the patterns of the headers start with. -/
theorem headerLetter_of_reads {c : Char} {w : List Char} {rs : List (Regex Char)} {s t : Line}
    {cs : List (List Char)} (hc : isSpace c = false)
    (h : Reads (concat (literal "#".toList :: spaces :: literal (c :: w) :: rs)) s t cs) :
    headerLetter s = some c := by
  cases h with
  | seq _ _ _ s₁ _ _ _ hhash hrest =>
      rcases (reads_literal_iff _).mp hhash with ⟨rfl, -⟩
      cases hrest with
      | seq _ _ _ s₂ _ _ _ hspaces hrest =>
          cases hspaces with
          | star _ _ v _ hv =>
              cases hrest with
              | seq _ _ _ s₃ _ _ _ hword hrest =>
                  rcases (reads_literal_iff _).mp hword with ⟨rfl, -⟩
                  change ((v ++ (c :: w ++ s₃)).dropWhile isSpace).head? = some c
                  rw [List.dropWhile_append_of_pos hv, List.cons_append,
                    List.dropWhile_cons_of_neg (by rw [hc]; exact Bool.false_ne_true)]
                  rfl

/-- A keyword starts with its first letter. -/
theorem reads_keyword {letter : Char} {w : List Char} {s t : Line} {cs : List (List Char)}
    (h : Reads (keyword (letter :: w)) s t cs) :
    ∃ c u, s = c :: u ∧ ignoreCase letter c = true := by
  cases h with
  | seq _ _ _ s₁ _ _ _ hchar hrest =>
      cases hchar with
      | char _ c _ hc => exact ⟨c, _, rfl, hc⟩

/-- White space has no capitals. -/
theorem toUpper_of_isSpace {c : Char} (h : isSpace c = true) : c.toUpper = c := by
  unfold Char.toUpper
  refine dif_neg (fun hletter => ?_)
  have hlow : 97 ≤ c.toNat := UInt32.le_iff_toNat_le.mp hletter.1
  have hhigh : c.toNat ≤ 122 := UInt32.le_iff_toNat_le.mp hletter.2
  simp only [isSpace, Bool.or_eq_true, Bool.and_eq_true, decide_eq_true_iff, beq_iff_eq] at h
  omega

/-- A letter in any capitals is no white space, and no start of a header. -/
theorem ignoreCase_ne {letter c : Char} (hspace : isSpace letter = false)
    (hhash : letter ≠ '#') (h : ignoreCase letter c = true) : c ≠ '#' ∧ isSpace c = false := by
  simp only [ignoreCase, Bool.or_eq_true, Bool.and_eq_true, beq_iff_eq] at h
  have hcode {n : Nat} (hn : n = 0x130 ∨ n = 0x131 ∨ n = 0x17F) (hc : c.toNat = n) :
      c ≠ '#' ∧ isSpace c = false := by
    refine ⟨?_, ?_⟩
    · rintro rfl
      have hsharp : '#'.toNat = 35 := rfl
      omega
    · simp only [isSpace, Bool.or_eq_false_iff, Bool.and_eq_false_iff, decide_eq_false_iff_not,
        beq_eq_false_iff_ne]
      omega
  rcases h with (hc | ⟨-, hc | hc⟩) | ⟨-, hc⟩
  · refine ⟨?_, Bool.eq_false_iff.mpr (fun hc' => ?_)⟩
    · rintro rfl
      exact hhash (hc.symm.trans (by decide))
    · rw [toUpper_of_isSpace hc'] at hc
      rw [hc, hspace] at hc'
      cases hc'
  · exact hcode (Or.inl rfl) hc
  · exact hcode (Or.inr (Or.inl rfl)) hc
  · exact hcode (Or.inr (Or.inr rfl)) hc

/-- A query starts with a slash or a letter. -/
theorem exists_of_queryStart {s : Line} (h : (queryStartPattern.captures s).isSome = true) :
    ∃ c u, s = c :: u ∧ c ≠ '#' ∧ isSpace c = false := by
  have hkeyword {letter : Char} {w : List Char} {s t : Line} {cs : List (List Char)}
      (hspace : isSpace letter = false) (hhash : letter ≠ '#')
      (h : Reads (keyword (letter :: w)) s t cs) :
      ∃ c u, s = c :: u ∧ c ≠ '#' ∧ isSpace c = false := by
    rcases reads_keyword h with ⟨c, u, rfl, hc⟩
    exact ⟨c, u, rfl, ignoreCase_ne hspace hhash hc⟩
  rcases isSome_captures_iff.mp h with ⟨t, cs, hreads⟩
  cases hreads with
  | seq _ _ _ m _ _ _ hgroup hrest =>
      cases hgroup with
      | group _ _ _ _ hword =>
          cases hword with
          | left _ _ _ _ _ hslash =>
              rcases (reads_literal_iff _).mp hslash with ⟨rfl, -⟩
              exact ⟨'/', _, rfl, by decide, by decide⟩
          | right _ _ _ _ _ hword =>
              cases hword with
              | left _ _ _ _ _ hword => exact hkeyword (by decide) (by decide) hword
              | right _ _ _ _ _ hword =>
                  cases hword with
                  | left _ _ _ _ _ hword => exact hkeyword (by decide) (by decide) hword
                  | right _ _ _ _ _ hword =>
                      cases hword with
                      | left _ _ _ _ _ hword => exact hkeyword (by decide) (by decide) hword
                      | right _ _ _ _ _ hword => exact hkeyword (by decide) (by decide) hword

/-- The four patterns start differently. -/
theorem python_apart (digit : Char → Bool) : (python digit).Apart := by
  have htime {line : Line} (h : ((python digit).time line).isSome = true) :
      headerLetter line = some 'T' := by
    rcases isSome_captures_iff.mp ((Option.isSome_map ..).symm.trans h) with ⟨t, cs, hreads⟩
    exact headerLetter_of_reads (by decide) hreads
  have huser {line : Line} (h : ((python digit).userHost line).isSome = true) :
      headerLetter line = some 'U' := by
    rcases isSome_captures_iff.mp ((Option.isSome_map ..).symm.trans h) with ⟨t, cs, hreads⟩
    exact headerLetter_of_reads (by decide) hreads
  have hstats {line : Line} (h : ((python digit).queryStats line).isSome = true) :
      headerLetter line = some 'Q' := by
    rcases isSome_captures_iff.mp ((Option.isSome_map ..).symm.trans h) with ⟨t, cs, hreads⟩
    exact headerLetter_of_reads (by decide) hreads
  have hstart {line : Line} (h : (python digit).queryStart line = true) :
      headerLetter line = none := by
    rcases exists_of_queryStart h with ⟨c, u, rfl, hc, -⟩
    unfold headerLetter
    split
    · next heq => exact absurd (List.cons.inj heq).1 hc
    · rfl
  -- A line has no two letters there.
  have hother {line : Line} {σ : Type} {o : Option σ} {c d : Char}
      (ho : o.isSome = true → headerLetter line = some d) (hc : headerLetter line = some c)
      (hcd : c ≠ d) : o = none := by
    refine Option.not_isSome_iff_eq_none.mp (fun hsome => hcd ?_)
    exact Option.some.inj (hc.symm.trans (ho hsome))
  have hquery {line : Line} {c : Char} (hc : headerLetter line = some c) :
      (python digit).queryStart line = false := by
    refine Bool.eq_false_iff.mpr (fun h => ?_)
    rw [hstart h] at hc
    cases hc
  exact
    { time := fun line h => ⟨hother huser (htime h) (by decide),
        hother hstats (htime h) (by decide),
        hquery (htime h)⟩
      userHost := fun line h => ⟨hother htime (huser h) (by decide),
        hother hstats (huser h) (by decide), hquery (huser h)⟩
      queryStats := fun line h => ⟨hother htime (hstats h) (by decide),
        hother huser (hstats h) (by decide), hquery (hstats h)⟩ }

/-- The output: the titles, and a row of the cells of each record. -/
def csv (digit : Char → Bool) (files : List (List Line)) : List (List (Option (List Char))) :=
  columns.map (fun f => some f.title) ::
    ((python digit).rows files).map (fun record => columns.map record)

end ParseMysqlSlowQuery

end BlogSample
