import BlogSample.ParseMysqlSlowQuery.Entries
import Mathlib.Data.List.TakeWhile

/-!
# Where Fields Come From

What the loop does between two `# Time` lines, for any lines: a field holds what
the last line with its header says, or what it held before, and the lines from
the start of a query on are collected.

The same loop on lines that carry their place in the file tells which lines the
text of a field comes from. Without the places it is the loop itself.

## Main definitions

* `Header`, `Field.header`: The headers and their fields.
* `Script.sets`: What a line says about each field.
* `Traced`, `Script.traced`: Texts with the places they come from.

## Theorems

* `foldl_untimed`: The loop between two timestamps.
* `line_timed`: The loop at a timestamp.
* `file_traced`: The places do not change the rows.
-/

namespace BlogSample

namespace ParseMysqlSlowQuery

/-- The headers of an entry after its timestamp. -/
inductive Header where
  | userHost
  | queryStats
  deriving DecidableEq, Repr

/-- The header that a field is read from. -/
def Field.header : Field → Option Header
  | .user | .host | .id => some .userHost
  | .queryTime | .lockTime | .rowsSent | .rowsExamined => some .queryStats
  | .time | .query => none

/-- A field that each line with the header sets to some text. -/
def Header.marker : Header → Field
  | .userHost => .id
  | .queryStats => .rowsExamined

theorem Header.header_marker (h : Header) : h.marker.header = some h := by
  cases h with
  | userHost => rfl
  | queryStats => rfl

section

variable {ℓ τ : Type} (S : Script ℓ τ)

/-- What the headers on a line say. -/
def Script.sets (line : ℓ) : Record τ
  | .user => (S.userHost line).map (fun m => m.1)
  | .host => (S.userHost line).map (fun m => m.2.1)
  | .id => (S.userHost line).map (fun m => m.2.2)
  | .queryTime => (S.queryStats line).map (fun m => m.1)
  | .lockTime => (S.queryStats line).map (fun m => m.2.1)
  | .rowsSent => (S.queryStats line).map (fun m => m.2.2.1)
  | .rowsExamined => (S.queryStats line).map (fun m => m.2.2.2)
  | .time | .query => none

/-- Is a line this header? -/
def Script.isHeader : Header → ℓ → Bool
  | .userHost, line => (S.userHost line).isSome
  | .queryStats, line => (S.queryStats line).isSome

def Script.hasQuery (lines : List ℓ) : Bool :=
  lines.any S.queryStart

def Script.hasHeader (h : Header) (lines : List ℓ) : Bool :=
  lines.any (S.isHeader h)

/-- What some lines say about a field, where the last one counts. -/
def Script.tells (lines : List ℓ) (f : Field) : Option τ :=
  lines.reverse.findSome? (fun line => S.sets line f)

/-- The lines that are collected of some lines. -/
def Script.collects (started : Bool) (lines : List ℓ) : List τ :=
  (if started then lines else lines.dropWhile (fun line => !S.queryStart line)).map S.strip

variable {S} {s : State τ} {line : ℓ}

/-- A header sets all of its fields. -/
theorem isSome_sets {f : Field} {h : Header} (hf : f.header = some h) :
    (S.sets line f).isSome = S.isHeader h line := by
  cases f with
  | time | query => cases hf
  | user | host | id | queryTime | lockTime | rowsSent | rowsExamined =>
      cases hf
      exact Option.isSome_map ..

/-- A field that no header has is never set. -/
theorem tells_eq_none {f : Field} (hf : f.header = none) (lines : List ℓ) :
    S.tells lines f = none := by
  refine List.findSome?_eq_none_iff.mpr (fun line _ => ?_)
  cases f with
  | time | query => rfl
  | user | host | id | queryTime | lockTime | rowsSent | rowsExamined => cases hf

/-- Some lines set the fields of the headers among them. -/
theorem isSome_tells {f : Field} {h : Header} (hf : f.header = some h) (lines : List ℓ) :
    (S.tells lines f).isSome = S.hasHeader h lines := by
  unfold Script.tells
  rw [List.isSome_findSome?, List.any_reverse]
  exact congrArg lines.any (funext (fun line => isSome_sets hf))

/-- Lines without headers say nothing. -/
theorem tells_eq_of_hasHeader {lines : List ℓ} (h : ∀ h, S.hasHeader h lines = false) :
    S.tells lines = fun _ => none := by
  funext f
  cases hf : f.header with
  | none => exact tells_eq_none hf lines
  | some header =>
      rw [← Option.not_isSome_iff_eq_none, isSome_tells hf, h]
      exact Bool.false_ne_true

/-- Nothing is collected of lines without a query. -/
theorem isEmpty_collects (lines : List ℓ) :
    (S.collects false lines).isEmpty = !S.hasQuery lines := by
  unfold Script.collects Script.hasQuery
  rw [if_neg Bool.false_ne_true, List.isEmpty_map, Bool.eq_iff_iff, List.isEmpty_iff,
    List.dropWhile_eq_nil_iff, Bool.not_eq_true', List.any_eq_false]
  simp

/-- A query that is collected starts with its first line. -/
theorem exists_collects {lines : List ℓ} (h : S.hasQuery lines = true) :
    ∃ line ∈ lines, ∃ rest, S.queryStart line = true ∧
      S.collects false lines = S.strip line :: rest := by
  unfold Script.collects
  rw [if_neg Bool.false_ne_true]
  induction lines with
  | nil => cases h
  | cons line lines ih =>
      cases hstart : S.queryStart line with
      | true =>
          refine ⟨line, List.mem_cons_self, lines.map S.strip, hstart, ?_⟩
          rw [List.dropWhile_cons_of_neg (by rw [hstart]; decide), List.map_cons]
      | false =>
          unfold Script.hasQuery at h ih
          rw [List.any_cons, hstart, Bool.false_or] at h
          rcases ih h with ⟨first, hfirst, rest, hquery, heq⟩
          refine ⟨first, List.mem_cons_of_mem _ hfirst, rest, hquery, ?_⟩
          rw [List.dropWhile_cons_of_pos (by rw [hstart]; rfl), heq]

/-- A line between two timestamps. -/
theorem line_untimed (htime : S.time line = none) :
    s.line S line =
      ⟨fun f => (S.sets line f).or (s.record f),
        s.query ++ S.collects (!s.query.isEmpty) [line], s.rows⟩ := by
  -- The matches of a header set its fields, and nothing else.
  have hrecord : ((s.userHostMatch S line).queryStatsMatch S line).record =
      fun f => (S.sets line f).or (s.record f) := by
    unfold State.userHostMatch State.queryStatsMatch
    funext f
    cases huser : S.userHost line <;> cases hstats : S.queryStats line <;> cases f <;>
      simp [Script.sets, huser, hstats, Function.update]
  have hquery : ((s.userHostMatch S line).queryStatsMatch S line).query = s.query := by
    unfold State.userHostMatch State.queryStatsMatch
    split <;> split <;> rfl
  have hrows : ((s.userHostMatch S line).queryStatsMatch S line).rows = s.rows := by
    unfold State.userHostMatch State.queryStatsMatch
    split <;> split <;> rfl
  have hheaders : (s.userHostMatch S line).queryStatsMatch S line =
      ⟨fun f => (S.sets line f).or (s.record f), s.query, s.rows⟩ := by
    rw [← hrecord, ← hquery, ← hrows]
  -- The first `if` of the loop is passed over.
  have htimeMatch : s.timeMatch S line = s := by
    unfold State.timeMatch
    rw [htime]
  unfold State.line State.collect
  rw [htimeMatch, hheaders]
  -- A line joins a query that has begun, or begins one.
  cases hempty : s.query.isEmpty with
  | false =>
      rw [Bool.not_false, Bool.or_true, if_pos rfl]
      rfl
  | true =>
      cases hstart : S.queryStart line with
      | true => simp [Script.collects, hstart]
      | false => simp [Script.collects, hstart]

/-- The lines between two timestamps. -/
theorem foldl_untimed (lines : List ℓ) (h : ∀ line ∈ lines, S.time line = none) :
    ∀ s : State τ, lines.foldl (State.line S) s =
      ⟨fun f => (S.tells lines f).or (s.record f),
        s.query ++ S.collects (!s.query.isEmpty) lines, s.rows⟩ := by
  induction lines with
  | nil =>
      intro s
      simp [Script.tells, Script.collects]
  | cons line lines ih =>
      intro s
      rcases List.forall_mem_cons.mp h with ⟨hline, hlines⟩
      rw [List.foldl_cons, line_untimed hline, ih hlines]
      congr 1
      · funext f
        unfold Script.tells
        rw [List.reverse_cons, List.findSome?_append, Option.or_assoc]
        congr 1
        rw [List.findSome?_singleton]
      · unfold Script.collects
        cases hquery : s.query with
        | cons _ _ => simp
        | nil =>
            cases hstart : S.queryStart line with
            | true => simp [hstart]
            | false => simp [hstart]

/-- A timestamp writes what has been collected, and then is collected itself if a
    query has been left over. -/
theorem line_timed (hS : S.Apart) {time : τ} (htime : S.time line = some time) :
    s.line S line =
      (State.mk (Function.update (if s.collected then fun _ => none else s.record) .time
          (some time))
        (if s.collected then [] else s.query) (s.finish S)).collect S line := by
  rcases hS.time line (by rw [htime]; rfl) with ⟨huser, hstats, -⟩
  unfold State.line State.timeMatch State.userHostMatch State.queryStatsMatch State.finish
  rw [htime, huser, hstats]
  split_ifs with hs
  · rfl
  · rfl

end

/-- A text, and the lines of the file that it comes from. -/
structure Traced where
  text : List Char
  places : List Nat
  deriving DecidableEq, Repr

/-- A dictionary without the places. -/
def Record.text (record : Record Traced) : Record (List Char) :=
  fun f => (record f).map Traced.text

def State.text (s : State Traced) : State (List Char) where
  record := s.record.text
  query := s.query.map Traced.text
  rows := s.rows.map Record.text

section

variable {ℓ : Type} (S : Script ℓ (List Char))

/-- The same script for lines with their places. -/
def Script.traced : Script (ℓ × Nat) Traced where
  time := fun p => (S.time p.1).map (fun t => ⟨t, [p.2]⟩)
  userHost := fun p =>
    (S.userHost p.1).map (fun m => (⟨m.1, [p.2]⟩, ⟨m.2.1, [p.2]⟩, ⟨m.2.2, [p.2]⟩))
  queryStats := fun p =>
    (S.queryStats p.1).map
      (fun m => (⟨m.1, [p.2]⟩, ⟨m.2.1, [p.2]⟩, ⟨m.2.2.1, [p.2]⟩, ⟨m.2.2.2, [p.2]⟩))
  queryStart := fun p => S.queryStart p.1
  strip := fun p => ⟨S.strip p.1, [p.2]⟩
  join := fun lines => ⟨S.join (lines.map Traced.text), lines.flatMap Traced.places⟩

variable {S}

theorem traced_apart (hS : S.Apart) : S.traced.Apart := by
  constructor
  · intro p h
    rcases hS.time p.1 ((Option.isSome_map ..).symm.trans h) with ⟨huser, hstats, hstart⟩
    exact ⟨Option.map_eq_none_iff.mpr huser, Option.map_eq_none_iff.mpr hstats, hstart⟩
  · intro p h
    rcases hS.userHost p.1 ((Option.isSome_map ..).symm.trans h) with ⟨htime, hstats, hstart⟩
    exact ⟨Option.map_eq_none_iff.mpr htime, Option.map_eq_none_iff.mpr hstats, hstart⟩
  · intro p h
    rcases hS.queryStats p.1 ((Option.isSome_map ..).symm.trans h) with ⟨htime, huser, hstart⟩
    exact ⟨Option.map_eq_none_iff.mpr htime, Option.map_eq_none_iff.mpr huser, hstart⟩

/-- What a line says comes from its place. -/
theorem sets_traced (line : ℓ) (n : Nat) (f : Field) :
    S.traced.sets (line, n) f = (S.sets line f).map (fun v => ⟨v, [n]⟩) := by
  cases f with
  | time | query => rfl
  | user | host | id | queryTime | lockTime | rowsSent | rowsExamined =>
      simp [Script.sets, Script.traced, Function.comp_def]

theorem isHeader_traced (h : Header) (p : ℓ × Nat) :
    S.traced.isHeader h p = S.isHeader h p.1 := by
  cases h with
  | userHost => exact Option.isSome_map ..
  | queryStats => exact Option.isSome_map ..

theorem hasHeader_traced (h : Header) (lines : List ℓ) (n : Nat) :
    S.traced.hasHeader h (lines.zipIdx n) = S.hasHeader h lines := by
  have hmap := congrArg (List.any · (S.isHeader h)) (List.zipIdx_map_fst n lines)
  rw [List.any_map] at hmap
  refine Eq.trans ?_ hmap
  exact congrArg (List.any (lines.zipIdx n)) (funext (isHeader_traced h))

theorem hasQuery_traced (lines : List ℓ) (n : Nat) :
    S.traced.hasQuery (lines.zipIdx n) = S.hasQuery lines := by
  have hmap := congrArg (List.any · S.queryStart) (List.zipIdx_map_fst n lines)
  rw [List.any_map] at hmap
  exact hmap

/-- What some lines say comes from one of them. -/
theorem tells_traced {lines : List ℓ} {n : Nat} {f : Field} {v : Traced}
    (h : S.traced.tells (lines.zipIdx n) f = some v) :
    ∃ line j, S.sets line f = some v.text ∧ v.places = [j] ∧ n ≤ j ∧ j < n + lines.length := by
  rcases List.exists_of_findSome?_eq_some h with ⟨⟨line, j⟩, hmem, hsets⟩
  rw [sets_traced] at hsets
  rcases Option.map_eq_some_iff.mp hsets with ⟨text, htext, rfl⟩
  rcases List.mem_zipIdx (List.mem_reverse.mp hmem) with ⟨hle, hlt, -⟩
  exact ⟨line, j, htext, rfl, hle, hlt⟩

/-- What is collected of some lines comes from them. -/
theorem collects_traced {lines : List ℓ} {n : Nat} {started : Bool} {v : Traced}
    (h : v ∈ S.traced.collects started (lines.zipIdx n)) :
    ∃ j, v.places = [j] ∧ n ≤ j ∧ j < n + lines.length := by
  rcases List.mem_map.mp h with ⟨⟨line, j⟩, hmem, rfl⟩
  have hmem : (line, j) ∈ lines.zipIdx n := by
    split_ifs at hmem with hstarted
    · exact hmem
    · exact (List.dropWhile_sublist _).mem hmem
  rcases List.mem_zipIdx hmem with ⟨hle, hlt, -⟩
  exact ⟨j, rfl, hle, hlt⟩

theorem text_update (record : Record Traced) (f : Field) (v : Traced) :
    Record.text (Function.update record f (some v)) =
      Function.update record.text f (some v.text) := by
  funext g
  unfold Record.text
  by_cases hg : g = f
  · rw [hg, Function.update_self, Function.update_self]
    rfl
  · rw [Function.update_of_ne hg, Function.update_of_ne hg]

theorem collected_text (s : State Traced) : s.text.collected = s.collected := by
  unfold State.collected Record.nonempty
  congr 1
  · exact congrArg columns.any (funext (fun f => Option.isSome_map ..))
  · exact congrArg Bool.not (List.isEmpty_map ..)

theorem row_text (s : State Traced) : (s.row S.traced).text = s.text.row S :=
  text_update s.record .query _

theorem finish_text (s : State Traced) :
    (s.finish S.traced).map Record.text = s.text.finish S := by
  unfold State.finish
  rw [collected_text]
  split_ifs with hs
  · rw [List.map_append, List.map_singleton, row_text]
    rfl
  · rfl

theorem timeMatch_text (s : State Traced) (p : ℓ × Nat) :
    (s.timeMatch S.traced p).text = s.text.timeMatch S p.1 := by
  unfold State.timeMatch
  cases htime : S.time p.1 with
  | none => simp [Script.traced, htime]
  | some time =>
      rw [collected_text]
      by_cases hs : s.collected = true
      · simp [Script.traced, htime, hs, State.text, State.opened, text_update]
        exact ⟨rfl, row_text s⟩
      · simp [Script.traced, htime, hs, State.text, text_update]

theorem userHostMatch_text (s : State Traced) (p : ℓ × Nat) :
    (s.userHostMatch S.traced p).text = s.text.userHostMatch S p.1 := by
  unfold State.userHostMatch
  cases huser : S.userHost p.1 with
  | none => simp [Script.traced, huser]
  | some m => simp [Script.traced, huser, State.text, text_update]

theorem queryStatsMatch_text (s : State Traced) (p : ℓ × Nat) :
    (s.queryStatsMatch S.traced p).text = s.text.queryStatsMatch S p.1 := by
  unfold State.queryStatsMatch
  cases hstats : S.queryStats p.1 with
  | none => simp [Script.traced, hstats]
  | some m => simp [Script.traced, hstats, State.text, text_update]

theorem collect_text (s : State Traced) (p : ℓ × Nat) :
    (s.collect S.traced p).text = s.text.collect S p.1 := by
  unfold State.collect
  have hempty : s.text.query.isEmpty = s.query.isEmpty := List.isEmpty_map ..
  rw [hempty]
  change State.text (if (S.queryStart p.1 || !s.query.isEmpty) = true then _ else s) = _
  split_ifs with hs
  · simp [State.text, Script.traced]
  · rfl

/-- A line does the same without its place. -/
theorem line_text (s : State Traced) (p : ℓ × Nat) :
    (s.line S.traced p).text = s.text.line S p.1 := by
  unfold State.line
  rw [collect_text, queryStatsMatch_text, userHostMatch_text, timeMatch_text]

/-- The rows are those of the script, with the places that their fields come
    from. -/
theorem file_traced (rows : List (Record Traced)) (lines : List ℓ) :
    (S.traced.file rows lines.zipIdx).map Record.text =
      S.file (rows.map Record.text) lines := by
  have hfold : ∀ (n : Nat) (s : State Traced),
      ((lines.zipIdx n).foldl (State.line S.traced) s).text =
        lines.foldl (State.line S) s.text := by
    induction lines with
    | nil => exact fun _ _ => rfl
    | cons line lines ih =>
        intro n s
        rw [List.zipIdx_cons, List.foldl_cons, List.foldl_cons, ih, line_text]
  unfold Script.file
  rw [finish_text, hfold]
  rfl

end

end ParseMysqlSlowQuery

end BlogSample
