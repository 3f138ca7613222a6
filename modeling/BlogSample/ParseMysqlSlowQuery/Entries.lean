import BlogSample.ParseMysqlSlowQuery.Parser

/-!
# Rows of Entries

Files that consist of entries with all their headers. A `# Time` line finds the
record of the entry before it complete, or a dictionary that is still empty at
the start of a file, so nothing is carried from one entry to the next. The
record of the last entry is written at the end of the file.

## Main definitions

* `Entry`: The lines of an entry.
* `Entry.row`: The row of an entry.

## Theorems

* `foldl_entry`: The loop over one entry.
* `rows_entries`: The rows of files of entries.
* `csv_entries`: The output has one row for each entry.
-/

namespace BlogSample

namespace ParseMysqlSlowQuery

/-- An entry: the three headers, other lines, and a query. -/
structure Entry {ℓ τ : Type} (S : Script ℓ τ) where
  timeLine : ℓ
  userHostLine : ℓ
  queryStatsLine : ℓ
  others : List ℓ
  queryLine : ℓ
  continuation : List ℓ
  time : (S.time timeLine).isSome = true
  userHost : (S.userHost userHostLine).isSome = true
  queryStats : (S.queryStats queryStatsLine).isSome = true
  others_apart (line : ℓ) : line ∈ others → S.time line = none ∧ S.userHost line = none ∧
    S.queryStats line = none ∧ S.queryStart line = false
  query : S.queryStart queryLine = true
  continuation_apart (line : ℓ) : line ∈ continuation →
    S.time line = none ∧ S.userHost line = none ∧ S.queryStats line = none

namespace Entry

variable {ℓ τ : Type} {S : Script ℓ τ}

def lines (e : Entry S) : List ℓ :=
  e.timeLine :: e.userHostLine :: e.queryStatsLine :: (e.others ++ e.queryLine :: e.continuation)

/-- What the headers of an entry say, and its query. -/
def row (e : Entry S) : Record τ
  | .time => S.time e.timeLine
  | .user => (S.userHost e.userHostLine).map (fun m => m.1)
  | .host => (S.userHost e.userHostLine).map (fun m => m.2.1)
  | .id => (S.userHost e.userHostLine).map (fun m => m.2.2)
  | .queryTime => (S.queryStats e.queryStatsLine).map (fun m => m.1)
  | .lockTime => (S.queryStats e.queryStatsLine).map (fun m => m.2.1)
  | .rowsSent => (S.queryStats e.queryStatsLine).map (fun m => m.2.2.1)
  | .rowsExamined => (S.queryStats e.queryStatsLine).map (fun m => m.2.2.2)
  | .query => some (S.join ((e.queryLine :: e.continuation).map S.strip))

end Entry

section

variable {ℓ τ : Type} {S : Script ℓ τ} {s : State τ} {line : ℓ}

/-- Nothing is collected before a query starts. -/
theorem collect_of_empty (hquery : s.query = []) (hstart : S.queryStart line = false) :
    s.collect S line = s := by
  unfold State.collect
  rw [hstart, hquery]
  rfl

/-- A line after a start is collected. -/
theorem collect_of_start (h : S.queryStart line = true ∨ s.query ≠ []) :
    s.collect S line = { s with query := s.query ++ [S.strip line] } := by
  unfold State.collect
  refine if_pos ?_
  rcases h with h | h
  · rw [h]
    rfl
  · rw [Bool.or_eq_true, Bool.not_eq_true', List.isEmpty_eq_false_iff]
    exact Or.inr h

/-- A line that is no header. -/
theorem line_of_apart (htime : S.time line = none) (huser : S.userHost line = none)
    (hstats : S.queryStats line = none) : s.line S line = s.collect S line := by
  unfold State.line State.timeMatch State.userHostMatch State.queryStatsMatch
  rw [htime, huser, hstats]

/-- The start of a query is no header. -/
theorem apart_of_queryStart (hS : S.Apart) (h : S.queryStart line = true) :
    S.time line = none ∧ S.userHost line = none ∧ S.queryStats line = none := by
  have hnone {σ : Type} {o : Option σ} (ho : o.isSome = true → S.queryStart line = false) :
      o = none := by
    refine Option.not_isSome_iff_eq_none.mp (fun hsome => ?_)
    rw [ho hsome] at h
    cases h
  exact ⟨hnone (fun hsome => (hS.time line hsome).2.2),
    hnone (fun hsome => (hS.userHost line hsome).2.2),
    hnone (fun hsome => (hS.queryStats line hsome).2.2)⟩

/-- A timestamp writes what has been collected. -/
theorem line_time (hS : S.Apart) {time : τ} (htime : S.time line = some time)
    (hs : s.collected = true ∨ s = State.opened s.rows) :
    s.line S line =
      ⟨Function.update (fun _ => none) .time (some time), [], s.finish S⟩ := by
  rcases hS.time line (by rw [htime]; rfl) with ⟨huser, hstats, hstart⟩
  have hmatch : s.timeMatch S line =
      ⟨Function.update (fun _ => none) .time (some time), [], s.finish S⟩ := by
    unfold State.timeMatch State.finish
    rw [htime]
    rcases hs with hs | hs
    · simp only [if_pos hs]
      rfl
    · rw [hs]
      rfl
  unfold State.line State.userHostMatch State.queryStatsMatch
  rw [huser, hstats, hmatch]
  exact collect_of_empty rfl hstart

/-- A line with the user before the query. -/
theorem line_userHost (hS : S.Apart) {user host id : τ}
    (huser : S.userHost line = some (user, host, id)) (hquery : s.query = []) :
    s.line S line = { s with
      record := Function.update (Function.update (Function.update s.record .user (some user))
        .host (some host)) .id (some id) } := by
  rcases hS.userHost line (by rw [huser]; rfl) with ⟨htime, hstats, hstart⟩
  unfold State.line State.timeMatch State.userHostMatch State.queryStatsMatch
  rw [htime, huser, hstats]
  exact collect_of_empty hquery hstart

/-- A line with the times before the query. -/
theorem line_queryStats (hS : S.Apart) {queryTime lockTime rowsSent rowsExamined : τ}
    (hstats : S.queryStats line = some (queryTime, lockTime, rowsSent, rowsExamined))
    (hquery : s.query = []) :
    s.line S line = { s with
      record := Function.update (Function.update (Function.update (Function.update s.record
        .queryTime (some queryTime)) .lockTime (some lockTime)) .rowsSent (some rowsSent))
        .rowsExamined (some rowsExamined) } := by
  rcases hS.queryStats line (by rw [hstats]; rfl) with ⟨htime, huser, hstart⟩
  unfold State.line State.timeMatch State.userHostMatch State.queryStatsMatch
  rw [htime, huser, hstats]
  exact collect_of_empty hquery hstart

/-- Other lines before a query. -/
theorem foldl_others (lines : List ℓ) (h : ∀ line ∈ lines, S.time line = none ∧
    S.userHost line = none ∧ S.queryStats line = none ∧ S.queryStart line = false) :
    ∀ s : State τ, s.query = [] → lines.foldl (State.line S) s = s := by
  induction lines with
  | nil => exact fun _ _ => rfl
  | cons line lines ih =>
      intro s hs
      rcases h line List.mem_cons_self with ⟨htime, huser, hstats, hstart⟩
      rw [List.foldl_cons, line_of_apart htime huser hstats, collect_of_empty hs hstart]
      exact ih (fun line hline => h line (List.mem_cons_of_mem _ hline)) s hs

/-- The lines of a query after its first one. -/
theorem foldl_continuation (lines : List ℓ) (h : ∀ line ∈ lines, S.time line = none ∧
    S.userHost line = none ∧ S.queryStats line = none) :
    ∀ s : State τ, s.query ≠ [] →
      lines.foldl (State.line S) s = { s with query := s.query ++ lines.map S.strip } := by
  induction lines with
  | nil =>
      intro s _
      rw [List.map_nil, List.append_nil]
      rfl
  | cons line lines ih =>
      intro s hs
      rcases h line List.mem_cons_self with ⟨htime, huser, hstats⟩
      rw [List.foldl_cons, line_of_apart htime huser hstats, collect_of_start (Or.inr hs),
        ih (fun line hline => h line (List.mem_cons_of_mem _ hline)) _
          (List.append_ne_nil_of_right_ne_nil _ (List.cons_ne_nil _ _))]
      rw [List.append_assoc]
      rfl

/-- An entry writes the record before it and leaves its own. -/
theorem foldl_entry (hS : S.Apart) (e : Entry S) (hs : s.collected = true ∨
    s = State.opened s.rows) :
    (e.lines.foldl (State.line S) s).collected = true ∧
      (e.lines.foldl (State.line S) s).finish S = s.finish S ++ [e.row] := by
  rcases Option.isSome_iff_exists.mp e.time with ⟨time, htime⟩
  rcases Option.isSome_iff_exists.mp e.userHost with ⟨⟨user, host, id⟩, huser⟩
  rcases Option.isSome_iff_exists.mp e.queryStats with
    ⟨⟨queryTime, lockTime, rowsSent, rowsExamined⟩, hstats⟩
  -- One line after the other: the time, the user, the statistics, what is passed
  -- over, and the query.
  have hlines : ∃ record, e.lines.foldl (State.line S) s =
      ⟨record, (e.queryLine :: e.continuation).map S.strip, s.finish S⟩ ∧
      record.nonempty = true ∧
      Function.update record .query
        (some (S.join ((e.queryLine :: e.continuation).map S.strip))) = e.row := by
    unfold Entry.lines
    rw [List.foldl_cons, List.foldl_cons, List.foldl_cons, List.foldl_append, List.foldl_cons,
      line_time hS htime hs, line_userHost hS huser rfl, line_queryStats hS hstats rfl,
      foldl_others _ e.others_apart _ rfl]
    rcases apart_of_queryStart hS e.query with ⟨htime', huser', hstats'⟩
    rw [line_of_apart htime' huser' hstats', collect_of_start (Or.inl e.query),
      foldl_continuation _ e.continuation_apart _ (List.cons_ne_nil _ _)]
    refine ⟨_, rfl, rfl, ?_⟩
    -- Each field has what its line told.
    funext f
    cases f with
    | time => exact htime.symm
    | query => rfl
    | user => exact (congrArg (Option.map (fun m => m.1)) huser).symm
    | host => exact (congrArg (Option.map (fun m => m.2.1)) huser).symm
    | id => exact (congrArg (Option.map (fun m => m.2.2)) huser).symm
    | queryTime => exact (congrArg (Option.map (fun m => m.1)) hstats).symm
    | lockTime => exact (congrArg (Option.map (fun m => m.2.1)) hstats).symm
    | rowsSent => exact (congrArg (Option.map (fun m => m.2.2.1)) hstats).symm
    | rowsExamined => exact (congrArg (Option.map (fun m => m.2.2.2)) hstats).symm
  rcases hlines with ⟨record, hstate, hrecord, hrow⟩
  rw [hstate]
  -- The row is written with the next entry, or at the end.
  have hcollected : (State.mk record ((e.queryLine :: e.continuation).map S.strip)
      (s.finish S)).collected = true := by
    unfold State.collected
    rw [hrecord]
    rfl
  refine ⟨hcollected, ?_⟩
  rw [State.finish, if_pos hcollected, State.row, hrow]

/-- Entry by entry. -/
theorem foldl_entries (hS : S.Apart) (entries : List (Entry S)) :
    ∀ s : State τ, s.collected = true ∨ s = State.opened s.rows →
      ((entries.flatMap Entry.lines).foldl (State.line S) s).finish S =
        s.finish S ++ entries.map Entry.row := by
  induction entries with
  | nil =>
      intro s _
      exact (List.append_nil _).symm
  | cons e entries ih =>
      intro s hs
      rcases foldl_entry hS e hs with ⟨hcollected, hfinish⟩
      rw [List.flatMap_cons, List.foldl_append, ih _ (Or.inl hcollected), hfinish,
        List.append_assoc]
      rfl

/-- A file of entries. -/
theorem file_entries (hS : S.Apart) (rows : List (Record τ)) (entries : List (Entry S)) :
    S.file rows (entries.flatMap Entry.lines) = rows ++ entries.map Entry.row :=
  foldl_entries hS entries (State.opened rows) (Or.inr rfl)

/-- Files of entries, file by file. -/
theorem rows_entries (hS : S.Apart) (files : List (List (Entry S))) :
    S.rows (files.map (fun entries => entries.flatMap Entry.lines)) =
      files.flatten.map Entry.row := by
  have hfrom : ∀ rows : List (Record τ),
      (files.map (fun entries => entries.flatMap Entry.lines)).foldl S.file rows =
        rows ++ files.flatten.map Entry.row := by
    induction files with
    | nil => exact fun rows => (List.append_nil rows).symm
    | cons entries files ih =>
        intro rows
        rw [List.map_cons, List.foldl_cons, file_entries hS, ih, List.flatten_cons,
          List.map_append, List.append_assoc]
  exact hfrom []

/-- The output has the titles and then one row for each entry, in order, with
    what its own headers say and the text of its own query. -/
theorem csv_entries (digit : Char → Bool) (files : List (List (Entry (python digit)))) :
    csv digit (files.map (fun entries => entries.flatMap Entry.lines)) =
      columns.map (fun f => some f.title) ::
        files.flatten.map (fun e => columns.map e.row) := by
  unfold csv
  rw [rows_entries (python_apart digit), List.map_map]
  rfl

end

/-- An entry with a line before its query, which takes two lines. -/
def selectUsers : Entry (python Char.isDigit) where
  timeLine := "# Time: 2025-02-18T12:34:56\n".toList
  userHostLine := "# User@Host: db_user[db_user] @ [192.168.1.10] Id: 12345\n".toList
  queryStatsLine :=
    "# Query_time: 1.234  Lock_time: 0.001  Rows_sent: 10  Rows_examined: 100\n".toList
  others := ["SET timestamp=1739882096;\n".toList]
  queryLine := "SELECT * FROM users\n".toList
  continuation := ["  WHERE id = 1;\n".toList]
  time := by decide +kernel
  userHost := by decide +kernel
  queryStats := by decide +kernel
  others_apart := by decide +kernel
  query := by decide +kernel
  continuation_apart := by decide +kernel

/-- An entry of another user, with two lines before its query. -/
def deleteOrders : Entry (python Char.isDigit) where
  timeLine := "# Time: 2025-02-18T12:35:10Z\n".toList
  userHostLine := "# User@Host: root[root] @ [localhost] Id: 7\n".toList
  queryStatsLine :=
    "# Query_time: 12.5  Lock_time: 0.000  Rows_sent: 0  Rows_examined: 9\n".toList
  others := ["use shop;\n".toList, "SET timestamp=1739882110;\n".toList]
  queryLine := "delete from orders\n".toList
  continuation := ["where id in\n".toList, "(1, 2);\n".toList]
  time := by decide +kernel
  userHost := by decide +kernel
  queryStats := by decide +kernel
  others_apart := by decide +kernel
  query := by decide +kernel
  continuation_apart := by decide +kernel

/-- Two files, the first of two entries. -/
theorem csv_entries_three :
    csv Char.isDigit [selectUsers.lines ++ deleteOrders.lines, selectUsers.lines] =
      [["Time", "User", "Host", "Id", "Query_Time", "Lock_Time", "Rows_Sent", "Rows_Examined",
          "Query"],
        ["2025-02-18T12:34:56", "db_user", "192.168.1.10", "12345", "1.234", "0.001", "10",
          "100", "SELECT * FROM users WHERE id = 1;"],
        ["2025-02-18T12:35:10Z", "root", "localhost", "7", "12.5", "0.000", "0", "9",
          "delete from orders where id in (1, 2);"],
        ["2025-02-18T12:34:56", "db_user", "192.168.1.10", "12345", "1.234", "0.001", "10",
          "100", "SELECT * FROM users WHERE id = 1;"]].map
        (fun row => row.map (fun s => some s.toList)) :=
  (csv_entries Char.isDigit [[selectUsers, deleteOrders], [selectUsers]]).trans
    (by decide +kernel)

end ParseMysqlSlowQuery

end BlogSample
