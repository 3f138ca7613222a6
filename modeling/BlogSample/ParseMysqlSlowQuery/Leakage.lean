import BlogSample.ParseMysqlSlowQuery.Tracing

/-!
# Fields of Another Entry

A `# Time` line clears the record only if it writes it. The headers of an entry
without a query stay for the next one, which keeps each of them that it does not
have itself. The lines of a query before the first `# Time` line stay as well if
no header comes with them.

## Main definitions

* `Script.NoLeak`: The fields of a row come from the lines of its entry.
* `Script.Separate`: The files in which nothing is left over for a later query.

## Theorems

* `contained_iff`: When the row of an entry has its own fields only.
* `foldl_entry_traced`: The loop over one more entry.
* `noLeak_iff`: No field comes from another entry if and only if nothing is left
  over.
-/

namespace BlogSample

namespace ParseMysqlSlowQuery

open Regex

section

variable {ℓ : Type} (S : Script ℓ (List Char))

/-- The line at place `j` comes after the one at place `i`, with no timestamp up
    to it. -/
def Script.Within (lines : List ℓ) (i j : Nat) : Prop :=
  i < j ∧ j < lines.length ∧
    ∀ k line, i < k → k ≤ j → lines[k]? = some line → S.time line = none

/-- If a row has a time, all that it has comes from lines after this timestamp and
    before the next. -/
def Script.Contained (lines : List ℓ) (row : Record Traced) : Prop :=
  ∀ time, row .time = some time → ∀ f v, f ≠ .time → row f = some v → v.text ≠ [] →
    ∀ i ∈ time.places, ∀ j ∈ v.places, S.Within lines i j

/-- All rows of a file are contained. -/
def Script.NoLeak (lines : List ℓ) : Prop :=
  ∀ row ∈ S.traced.file [] lines.zipIdx, S.Contained lines row

/-- The lines before the first timestamp, and those after each one. -/
def Script.blocks (lines : List ℓ) : List (List ℓ) :=
  lines.splitOnP (fun line => (S.time line).isSome)

/-- A block leaves its headers if it has no query. -/
def Script.Leaves (block : List ℓ) (h : Header) : Prop :=
  S.hasQuery block = false ∧ S.hasHeader h block = true

/-- The next query in some blocks comes with the headers that are left. -/
def Script.Repeats (left : Header → Prop) (blocks : List (List ℓ)) : Prop :=
  ∀ between c after, blocks = between ++ c :: after → (∀ d ∈ between, S.hasQuery d = false) →
    S.hasQuery c = true → ∀ h, left h → S.hasHeader h c = true

/-- Nothing is left for a later query: lines before the first timestamp have a
    header if they have a query, and what a block without a query says is said
    again with the next one. -/
structure Script.Separate (lines : List ℓ) : Prop where
  first (b c : List ℓ) (after : List (List ℓ)) : S.blocks lines = b :: c :: after →
    S.hasQuery b = true → ∃ h, S.hasHeader h b = true
  repeats (before : List (List ℓ)) (b : List ℓ) (after : List (List ℓ)) :
    S.blocks lines = before ++ b :: after → S.Repeats (S.Leaves b) after

/-- What is captured at the end of a header is not empty, and a query is not. -/
structure Script.Solid : Prop where
  id (line : ℓ) (user host id : List Char) : S.userHost line = some (user, host, id) → id ≠ []
  rowsExamined (line : ℓ) (queryTime lockTime rowsSent rowsExamined : List Char) :
    S.queryStats line = some (queryTime, lockTime, rowsSent, rowsExamined) → rowsExamined ≠ []
  join (line : ℓ) (rest : List (List Char)) : S.queryStart line = true →
    S.join (S.strip line :: rest) ≠ []

variable {S}

/-! ### Blocks -/

theorem repeats_nil {left : Header → Prop} : S.Repeats left [] :=
  fun _ _ _ heq => absurd heq.symm (List.append_ne_nil_of_right_ne_nil _ (List.cons_ne_nil _ _))

theorem repeats_cons {left : Header → Prop} {c : List ℓ} {blocks : List (List ℓ)} :
    S.Repeats left (c :: blocks) ↔
      (S.hasQuery c = true → ∀ h, left h → S.hasHeader h c = true) ∧
        S.Repeats (fun h => S.hasQuery c = false ∧ left h) blocks := by
  constructor
  · intro h
    refine ⟨h [] c blocks rfl (fun _ hd => absurd hd List.not_mem_nil), ?_⟩
    rintro between d after rfl hbetween hd g ⟨hc, hg⟩
    exact h (c :: between) d after rfl (List.forall_mem_cons.mpr ⟨hc, hbetween⟩) hd g hg
  · rintro ⟨hc, hblocks⟩ between d after heq hbetween hd g hg
    cases between with
    | nil =>
        cases heq
        exact hc hd g hg
    | cons b between =>
        cases heq
        rcases List.forall_mem_cons.mp hbetween with ⟨hb, hbetween⟩
        exact hblocks between d after rfl hbetween hd g ⟨hb, hg⟩

theorem repeats_or {left left' : Header → Prop} {blocks : List (List ℓ)} :
    S.Repeats (fun h => left h ∨ left' h) blocks ↔
      S.Repeats left blocks ∧ S.Repeats left' blocks := by
  constructor
  · intro h
    exact ⟨fun between c after heq hb hc g hg => h between c after heq hb hc g (Or.inl hg),
      fun between c after heq hb hc g hg => h between c after heq hb hc g (Or.inr hg)⟩
  · rintro ⟨h, h'⟩ between c after heq hb hc g (hg | hg)
    · exact h between c after heq hb hc g hg
    · exact h' between c after heq hb hc g hg

theorem forall_repeats_nil (before : List (List ℓ)) (c : List ℓ) (after : List (List ℓ))
    (heq : [] = before ++ c :: after) : S.Repeats (S.Leaves c) after :=
  absurd heq.symm (List.append_ne_nil_of_right_ne_nil _ (List.cons_ne_nil _ _))

/-- What each block leaves, block by block. -/
theorem forall_repeats_cons {b : List ℓ} {blocks : List (List ℓ)} :
    (∀ before c after, b :: blocks = before ++ c :: after → S.Repeats (S.Leaves c) after) ↔
      S.Repeats (S.Leaves b) blocks ∧
        ∀ before c after, blocks = before ++ c :: after → S.Repeats (S.Leaves c) after := by
  constructor
  · intro h
    refine ⟨h [] b blocks rfl, fun before c after heq => h (b :: before) c after ?_⟩
    rw [heq, List.cons_append]
  · rintro ⟨hb, hblocks⟩ before c after heq
    cases before with
    | nil =>
        cases heq
        exact hb
    | cons d before =>
        cases heq
        exact hblocks before c after rfl

/-- A file is its first lines and then each timestamp with its block. -/
theorem exists_blocks (lines : List ℓ) : ∃ (b : List ℓ) (entries : List (ℓ × List ℓ)),
    lines = b ++ entries.flatMap (fun e => e.1 :: e.2) ∧
      S.blocks lines = b :: entries.map Prod.snd ∧
      (∀ line ∈ b, S.time line = none) ∧
      ∀ e ∈ entries, (S.time e.1).isSome = true ∧ ∀ line ∈ e.2, S.time line = none := by
  unfold Script.blocks
  induction lines with
  | nil => exact ⟨[], [], rfl, rfl, fun _ h => absurd h List.not_mem_nil,
      fun _ h => absurd h List.not_mem_nil⟩
  | cons line lines ih =>
      rcases ih with ⟨b, entries, heq, hblocks, hb, hentries⟩
      rw [List.splitOnP_cons_eq_if_modifyHead, hblocks]
      cases htime : (S.time line).isSome with
      | true =>
          refine ⟨[], (line, b) :: entries, ?_, rfl, fun _ h => absurd h List.not_mem_nil,
            List.forall_mem_cons.mpr ⟨⟨htime, hb⟩, hentries⟩⟩
          rw [heq]
          rfl
      | false =>
          refine ⟨line :: b, entries, ?_, rfl,
            List.forall_mem_cons.mpr ⟨Option.not_isSome_iff_eq_none.mp (by rw [htime]; decide), hb⟩,
            hentries⟩
          rw [heq, List.cons_append]

/-- The lines of an entry are within it. -/
theorem within_block {lines pre body rest : List ℓ} {timeLine : ℓ} {j : Nat}
    (hlines : lines = pre ++ timeLine :: (body ++ rest))
    (hbody : ∀ line ∈ body, S.time line = none) (hle : pre.length + 1 ≤ j)
    (hlt : j < pre.length + 1 + body.length) : S.Within lines pre.length j := by
  refine ⟨hle, ?_, fun k line hk hkj hline => hbody line ?_⟩
  · rw [hlines, List.length_append, List.length_cons, List.length_append]
    omega
  · rw [hlines, List.getElem?_append_right (by omega)] at hline
    rcases Nat.exists_eq_add_of_lt hk with ⟨m, rfl⟩
    have hm : pre.length + m + 1 - pre.length = m + 1 := by omega
    rw [hm, List.getElem?_cons_succ, List.getElem?_append_left (by omega)] at hline
    exact List.mem_of_getElem? hline

/-! ### Entries with places -/

/-- What the record holds when the next timestamp has cleared it or not. -/
def State.kept (s : State Traced) : Record Traced :=
  if s.collected then fun _ => none else s.record

/-- A header of earlier lines that the next timestamp does not clear. -/
def State.Stale (s : State Traced) (h : Header) : Prop :=
  (s.kept h.marker).isSome = true

/-- The fields of a record come from the first `n` lines, and are set header by
    header. -/
structure Record.Grounded (record : Record Traced) (n : Nat) : Prop where
  places (f : Field) (v : Traced) : record f = some v → v.places ≠ [] ∧ ∀ j ∈ v.places, j < n
  marked (f : Field) (h : Header) : f.header = some h → (record f).isSome = true →
    ∃ v, record h.marker = some v ∧ v.text ≠ []

/-- After `n` lines, before a timestamp: a query can be written. -/
structure State.Ready (s : State Traced) (n : Nat) : Prop where
  clean : s.query = [] ∨ s.record.nonempty = true
  grounded : s.record.Grounded n

theorem Header.marker_ne_time (h : Header) : h.marker ≠ .time := by
  cases h with
  | userHost => decide
  | queryStats => decide

section

variable {record : Record Traced} {s : State Traced} {n : Nat}

theorem nonempty_of_isSome {f : Field} (h : (record f).isSome = true) :
    record.nonempty = true := by
  refine List.any_eq_true.mpr ⟨f, ?_, h⟩
  cases f <;> decide

theorem grounded_none (n : Nat) : Record.Grounded (fun _ => none) n where
  places := by
    intro f v hv
    cases hv
  marked := by
    intro f h _ hsome
    cases hsome

/-- The time of an entry comes from its own first line. -/
theorem Record.Grounded.timed (hrecord : record.Grounded n) (time : List Char) :
    Record.Grounded (Function.update record .time (some ⟨time, [n]⟩)) (n + 1) where
  places := by
    intro f v hv
    by_cases hf : f = .time
    · rw [hf, Function.update_self] at hv
      rw [← Option.some.inj hv]
      exact ⟨List.cons_ne_nil _ _, List.forall_mem_singleton.mpr (Nat.lt_succ_self n)⟩
    · rw [Function.update_of_ne hf] at hv
      rcases hrecord.places f v hv with ⟨hne, hlt⟩
      exact ⟨hne, fun j hj => Nat.lt_succ_of_lt (hlt j hj)⟩
  marked := by
    intro f h hf hsome
    have hne : f ≠ .time := by
      rintro rfl
      cases hf
    rw [Function.update_of_ne hne] at hsome
    rw [Function.update_of_ne h.marker_ne_time]
    exact hrecord.marked f h hf hsome

/-- The marker of a header has a text. -/
theorem marker_ne_nil (hsolid : S.Solid) {line : ℓ} {h : Header} {text : List Char}
    (hsets : S.sets line h.marker = some text) : text ≠ [] := by
  cases h with
  | userHost =>
      rcases Option.map_eq_some_iff.mp hsets with ⟨⟨user, host, id⟩, huser, rfl⟩
      exact hsolid.id line user host id huser
  | queryStats =>
      rcases Option.map_eq_some_iff.mp hsets with
        ⟨⟨queryTime, lockTime, sent, examined⟩, hstats, rfl⟩
      exact hsolid.rowsExamined line queryTime lockTime sent examined hstats

/-- More lines before the next timestamp. -/
theorem Record.Grounded.untimed (hsolid : S.Solid) (hrecord : record.Grounded n)
    (body : List ℓ) :
    Record.Grounded (fun f => (S.traced.tells (body.zipIdx n) f).or (record f))
      (n + body.length) where
  places := by
    intro f v hv
    rcases Option.or_eq_some_iff.mp hv with htells | ⟨-, hv⟩
    · rcases tells_traced htells with ⟨line, j, -, hj, -, hlt⟩
      rw [hj]
      exact ⟨List.cons_ne_nil _ _, List.forall_mem_singleton.mpr hlt⟩
    · rcases hrecord.places f v hv with ⟨hne, hlt⟩
      exact ⟨hne, fun j hj => (hlt j hj).trans_le (Nat.le_add_right _ _)⟩
  marked := by
    intro f h hf hsome
    rw [Option.isSome_or, isSome_tells hf, ← isSome_tells h.header_marker, Bool.or_eq_true] at hsome
    cases htells : S.traced.tells (body.zipIdx n) h.marker with
    | some v =>
        rcases tells_traced htells with ⟨line, j, hsets, -⟩
        exact ⟨v, rfl, marker_ne_nil hsolid hsets⟩
    | none =>
        rw [htells] at hsome
        rcases hsome with hsome | hsome
        · cases hsome
        · exact hrecord.marked f h hf hsome

theorem State.Ready.kept (hs : s.Ready n) : s.kept.Grounded n := by
  unfold State.kept
  split_ifs with hcollected
  · exact grounded_none n
  · exact hs.grounded

/-- A query is written if there is one. -/
theorem State.Ready.collected (hs : s.Ready n) : s.collected = !s.query.isEmpty := by
  unfold State.collected
  rcases hs.clean with hquery | hrecord
  · rw [hquery, List.isEmpty_nil, Bool.not_true, Bool.and_false]
  · rw [hrecord, Bool.true_and]

end

theorem untimed_zipIdx {body : List ℓ} (hbody : ∀ line ∈ body, S.time line = none) (n : Nat) :
    ∀ p ∈ body.zipIdx n, S.traced.time p = none := by
  intro p hp
  exact Option.map_eq_none_iff.mpr (hbody p.1 (List.fst_mem_of_mem_zipIdx hp))

/-- An entry: a timestamp and the lines up to the next one. -/
theorem foldl_timed (hS : S.Apart) {timeLine : ℓ} {time : List Char} {body : List ℓ}
    (htime : S.time timeLine = some time) (hbody : ∀ line ∈ body, S.time line = none) {n : Nat}
    {s : State Traced} (hs : s.Ready n) :
    ((timeLine :: body).zipIdx n).foldl (State.line S.traced) s =
      ⟨fun f => (S.traced.tells (body.zipIdx (n + 1)) f).or
          (Function.update s.kept .time (some ⟨time, [n]⟩) f),
        S.traced.collects false (body.zipIdx (n + 1)), s.finish S.traced⟩ := by
  have htraced : S.traced.time (timeLine, n) = some ⟨time, [n]⟩ :=
    congrArg (Option.map (fun t => Traced.mk t [n])) htime
  have hstart : S.traced.queryStart (timeLine, n) = false :=
    ((traced_apart hS).time _ (by rw [htraced]; rfl)).2.2
  have hquery : (if s.collected then [] else s.query) = [] := by
    rw [hs.collected]
    cases s.query with
    | nil => rfl
    | cons _ _ => rfl
  rw [List.zipIdx_cons, List.foldl_cons, line_timed (traced_apart hS) htraced, hquery,
    collect_of_empty rfl hstart, foldl_untimed _ (untimed_zipIdx hbody _)]
  rfl

/-- The only field besides the time that no header sets is the query. -/
theorem Field.eq_query {f : Field} (hf : f ≠ .time) (hheader : f.header = none) : f = .query := by
  cases f with
  | time => exact absurd rfl hf
  | query => rfl
  | user | host | id | queryTime | lockTime | rowsSent | rowsExamined => cases hheader

/-- The record of an entry has its own fields only if and only if it has each
    header that has been kept. -/
theorem contained_iff {lines pre body rest : List ℓ} {timeLine : ℓ}
    (time : List Char) (hlines : lines = pre ++ timeLine :: (body ++ rest))
    (hbody : ∀ line ∈ body, S.time line = none) {s : State Traced} (hs : s.Ready pre.length)
    {row : Record Traced}
    (hrow : row = Function.update
      (fun f => (S.traced.tells (body.zipIdx (pre.length + 1)) f).or
        (Function.update s.kept .time (some ⟨time, [pre.length]⟩) f)) .query
      (some (S.traced.join (S.traced.collects false (body.zipIdx (pre.length + 1)))))) :
    S.Contained lines row ↔ ∀ h, s.Stale h → S.hasHeader h body = true := by
  have htime : row .time = some ⟨time, [pre.length]⟩ := by
    rw [hrow, Function.update_of_ne (by decide), tells_eq_none rfl]
    rfl
  -- A field of a header is told by the body, or else is what was kept.
  have hfield {f : Field} {h : Header} (hf : f.header = some h) :
      row f = (S.traced.tells (body.zipIdx (pre.length + 1)) f).or (s.kept f) := by
    have hquery : f ≠ .query := by
      rintro rfl
      cases hf
    have htime : f ≠ .time := by
      rintro rfl
      cases hf
    rw [hrow, Function.update_of_ne hquery, Function.update_of_ne htime]
  constructor
  -- A field that was kept has a place before the entry.
  · intro hcontained h hstale
    by_contra hheader
    have htells : S.traced.tells (body.zipIdx (pre.length + 1)) h.marker = none := by
      rw [← Option.not_isSome_iff_eq_none, isSome_tells h.header_marker, hasHeader_traced]
      exact hheader
    rcases hs.kept.marked _ h h.header_marker hstale with ⟨v, hv, htext⟩
    rcases hs.kept.places _ v hv with ⟨hne, hlt⟩
    rcases List.exists_mem_of_ne_nil _ hne with ⟨j, hj⟩
    have hwithin := hcontained _ htime h.marker v h.marker_ne_time
      (by rw [hfield h.header_marker, htells, hv]; rfl) htext _ (List.mem_singleton.mpr rfl) j hj
    exact absurd hwithin.1 (Nat.not_lt_of_lt (hlt j hj))
  -- A value has its place in the block, or was kept and is overwritten.
  · intro hstale t ht f v hf hv _ i hi j hj
    have heq : t = ⟨time, [pre.length]⟩ := Option.some.inj (ht.symm.trans htime)
    rw [heq] at hi
    rcases List.mem_singleton.mp hi with rfl
    have hplace {k : Nat} (hk : j ∈ [k]) (hle : pre.length + 1 ≤ k)
        (hlt : k < pre.length + 1 + body.length) : S.Within lines pre.length j :=
      List.mem_singleton.mp hk ▸ within_block hlines hbody hle hlt
    cases hheader : f.header with
    | none =>
        -- The query is collected from the lines of the body alone.
        rw [hrow, Field.eq_query hf hheader, Function.update_self] at hv
        rw [← Option.some.inj hv] at hj
        rcases List.mem_flatMap.mp hj with ⟨w, hw, hj⟩
        rcases collects_traced hw with ⟨k, hk, hle, hlt⟩
        exact hplace (hk ▸ hj) hle hlt
    | some h =>
        rw [hfield hheader] at hv
        rcases Option.or_eq_some_iff.mp hv with htells | ⟨htells, hkept⟩
        · rcases tells_traced htells with ⟨line, k, -, hk, hle, hlt⟩
          rw [hk] at hj
          exact hplace hj hle hlt
        -- A field that is kept is one of a header that the entry has.
        · rcases hs.kept.marked f h hheader (by rw [hkept]; rfl) with ⟨w, hw, -⟩
          have hhas := hstale h (by rw [State.Stale, hw]; rfl)
          have hsome := isSome_tells hheader (S := S.traced) (body.zipIdx (pre.length + 1))
          rw [htells, hasHeader_traced, hhas] at hsome
          cases hsome

/-- One more entry. -/
theorem foldl_entry_traced (hS : S.Apart) (hsolid : S.Solid) {lines pre body rest : List ℓ}
    {timeLine : ℓ} (hlines : lines = pre ++ timeLine :: (body ++ rest))
    (htime : (S.time timeLine).isSome = true) (hbody : ∀ line ∈ body, S.time line = none)
    {s t : State Traced} (hs : s.Ready pre.length)
    (ht : ((timeLine :: body).zipIdx pre.length).foldl (State.line S.traced) s = t) :
    t.Ready (pre ++ timeLine :: body).length ∧
      (∀ h, t.Stale h ↔
        S.hasQuery body = false ∧ (s.Stale h ∨ S.hasHeader h body = true)) ∧
      ((∀ row ∈ t.finish S.traced, S.Contained lines row) ↔
        (∀ row ∈ s.finish S.traced, S.Contained lines row) ∧
          (S.hasQuery body = true → ∀ h, s.Stale h → S.hasHeader h body = true)) := by
  rcases Option.isSome_iff_exists.mp htime with ⟨time, htime⟩
  rw [foldl_timed hS htime hbody hs] at ht
  -- The entry begins with a time, so the record is not empty, and the fields that
  -- it does not have are as old as they were.
  have hready : t.Ready (pre ++ timeLine :: body).length := by
    rw [← ht, List.length_append, List.length_cons, Nat.add_comm body.length, ← Nat.add_assoc]
    refine ⟨Or.inr ?_, (hs.kept.timed time).untimed hsolid body⟩
    refine @nonempty_of_isSome _ .time ((Option.isSome_or ..).trans ?_)
    rw [Function.update_self, Option.isSome_some, Bool.or_true]
  -- A row is collected if the body has the beginning of a query.
  have hcollected : t.collected = S.hasQuery body := by
    rw [hready.collected, ← ht]
    change (!(S.traced.collects false (body.zipIdx (pre.length + 1))).isEmpty) = _
    rw [isEmpty_collects, Bool.not_not, hasQuery_traced]
  refine ⟨hready, fun h => ?_, ?_⟩
  -- A record that is written is cleared.
  · unfold State.Stale State.kept
    rw [hcollected]
    cases hquery : S.hasQuery body with
    | true => simp
    | false =>
        rw [if_neg Bool.false_ne_true, ← ht, Option.isSome_or, isSome_tells h.header_marker,
          hasHeader_traced, Function.update_of_ne h.marker_ne_time, Bool.or_eq_true, or_comm]
        simp [State.kept]
  -- The row of this entry is the last one, the others are from before.
  · have hrow : S.Contained lines (t.row S.traced) ↔
        ∀ h, s.Stale h → S.hasHeader h body = true :=
      contained_iff time hlines hbody hs (by rw [← ht]; rfl)
    have hrows : t.rows = s.finish S.traced := by
      rw [← ht]
    unfold State.finish at hrows ⊢
    rw [hcollected, hrows]
    cases hquery : S.hasQuery body with
    | true =>
        rw [if_pos rfl, List.forall_mem_append, List.forall_mem_singleton, hrow]
        simp
    | false => simp

/-- All entries from some place on. -/
theorem foldl_entries_traced (hS : S.Apart) (hsolid : S.Solid) {lines : List ℓ}
    (entries : List (ℓ × List ℓ)) (hentries : ∀ e ∈ entries, (S.time e.1).isSome = true ∧
      ∀ line ∈ e.2, S.time line = none) :
    ∀ (pre : List ℓ) (s : State Traced), lines = pre ++ entries.flatMap (fun e => e.1 :: e.2) →
      s.Ready pre.length →
        ((∀ row ∈ (((entries.flatMap (fun e => e.1 :: e.2)).zipIdx pre.length).foldl
            (State.line S.traced) s).finish S.traced, S.Contained lines row) ↔
          (∀ row ∈ s.finish S.traced, S.Contained lines row) ∧
            S.Repeats s.Stale (entries.map Prod.snd) ∧
            ∀ before b after, entries.map Prod.snd = before ++ b :: after →
              S.Repeats (S.Leaves b) after) := by
  induction entries with
  | nil =>
      intro pre s _ _
      exact ⟨fun h => ⟨h, repeats_nil, forall_repeats_nil⟩, fun h => h.1⟩
  | cons e entries ih =>
      intro pre s hlines hs
      rcases List.forall_mem_cons.mp hentries with ⟨⟨htime, hbody⟩, hentries⟩
      rw [List.flatMap_cons] at hlines
      rcases foldl_entry_traced hS hsolid hlines htime hbody hs rfl with
        ⟨hready, hstale, hfinish⟩
      -- A field is stale after the entry if it was before and no row was written, or
      -- if the entry leaves it behind.
      have hstale : _ = fun h => (S.hasQuery e.2 = false ∧ s.Stale h) ∨ S.Leaves e.2 h :=
        funext (fun h => propext ((hstale h).trans and_or_left))
      rw [List.flatMap_cons, List.zipIdx_append, List.foldl_append, ← List.length_append,
        ih hentries _ _ (by rw [hlines, List.append_assoc]) hready, hfinish, hstale,
        repeats_or, List.map_cons, repeats_cons, forall_repeats_cons]
      tauto

/-- The lines before the first timestamp. -/
theorem foldl_first {b : List ℓ} (hb : ∀ line ∈ b, S.time line = none) :
    b.zipIdx.foldl (State.line S.traced) (State.opened []) =
      ⟨S.traced.tells b.zipIdx, S.traced.collects false b.zipIdx, []⟩ := by
  rw [foldl_untimed _ (untimed_zipIdx hb 0)]
  congr 1
  funext f
  exact Option.or_none

/-- The state before the first timestamp. -/
theorem ready_first (hsolid : S.Solid) {b : List ℓ}
    (hfirst : S.hasQuery b = true → ∃ h, S.hasHeader h b = true) {s : State Traced}
    (hrecord : s.record = S.traced.tells b.zipIdx)
    (hcollects : s.query = S.traced.collects false b.zipIdx) (hrows : s.rows = []) :
    s.Ready b.length ∧ (∀ h, s.Stale h ↔ S.Leaves b h) ∧
      ∀ row ∈ s.finish S.traced, row .time = none := by
  -- Nothing is kept from before, since there is nothing before.
  have hgrounded : s.record.Grounded b.length := by
    have hbody := (grounded_none 0).untimed hsolid b
    rw [Nat.zero_add] at hbody
    rw [hrecord]
    refine Eq.mp (congrArg (Record.Grounded · b.length) (funext (fun f => ?_))) hbody
    exact Option.or_none
  have hsome {f : Field} {h : Header} (hf : f.header = some h) :
      (s.record f).isSome = S.hasHeader h b := by
    rw [hrecord, isSome_tells hf, hasHeader_traced]
  have hempty : s.query.isEmpty = !S.hasQuery b := by
    rw [hcollects, isEmpty_collects, hasQuery_traced]
  -- A query without any header before it would make a row of the query alone,
  -- which the hypothesis excludes.
  have hready : s.Ready b.length := by
    refine ⟨?_, hgrounded⟩
    cases hquery : S.hasQuery b with
    | false =>
        rw [hquery] at hempty
        exact Or.inl (List.isEmpty_iff.mp hempty)
    | true =>
        rcases hfirst hquery with ⟨h, hh⟩
        exact Or.inr (nonempty_of_isSome ((hsome h.header_marker).trans hh))
  have hcollected : s.collected = S.hasQuery b := by
    rw [hready.collected, hempty, Bool.not_not]
  refine ⟨hready, fun h => ?_, ?_⟩
  · unfold State.Stale State.kept Script.Leaves
    rw [hcollected]
    cases hquery : S.hasQuery b with
    | true => simp
    | false => simp [hsome h.header_marker]
  · intro row hrow
    unfold State.finish at hrow
    rw [hrows] at hrow
    -- The row has no time, since no line told one.
    split_ifs at hrow with hc
    · rw [List.nil_append, List.mem_singleton] at hrow
      rw [hrow, State.row, Function.update_of_ne (by decide), hrecord, tells_eq_none rfl]
    · cases hrow

/-- A query before the first timestamp that has no header gets to the first
    entry. -/
theorem not_contained_first (hS : S.Apart) (hsolid : S.Solid) {b body : List ℓ}
    {timeLine : ℓ} (hquery : S.hasQuery b = true) (hheader : ∀ h, S.hasHeader h b = false)
    (htime : (S.time timeLine).isSome = true) (hbody : ∀ line ∈ body, S.time line = none)
    {s t : State Traced} (hrecord : s.record = S.traced.tells b.zipIdx)
    (hcollects : s.query = S.traced.collects false b.zipIdx)
    (ht : ((timeLine :: body).zipIdx b.length).foldl (State.line S.traced) s = t) :
    t.Ready (b ++ timeLine :: body).length ∧
      ∃ row ∈ t.finish S.traced, ∀ lines, ¬ S.Contained lines row := by
  rcases Option.isSome_iff_exists.mp htime with ⟨time, htime⟩
  have htraced : S.traced.time (timeLine, b.length) = some ⟨time, [b.length]⟩ :=
    congrArg (Option.map (fun t => Traced.mk t [b.length])) htime
  have hrecord : s.record = fun _ => none :=
    hrecord.trans (tells_eq_of_hasHeader (fun h => (hasHeader_traced h b 0).trans (hheader h)))
  have hcollected : s.collected = false := by
    unfold State.collected
    rw [hrecord]
    rfl
  rcases exists_collects (S := S.traced) ((hasQuery_traced b 0).trans hquery) with
    ⟨⟨line, j⟩, hmem, tail, hstart, hcons⟩
  -- The line of the timestamp is collected as well.
  have hline : s.line S.traced (timeLine, b.length) =
      ⟨Function.update (fun _ => none) .time (some ⟨time, [b.length]⟩),
        s.query ++ [S.traced.strip (timeLine, b.length)], s.finish S.traced⟩ := by
    rw [line_timed (traced_apart hS) htraced, hcollected, hrecord]
    refine collect_of_start (Or.inr ?_)
    rw [if_neg Bool.false_ne_true, hcollects, hcons]
    exact List.cons_ne_nil _ _
  rw [List.zipIdx_cons, List.foldl_cons, hline, foldl_untimed _ (untimed_zipIdx hbody _)] at ht
  have htimeField : t.record .time = some ⟨time, [b.length]⟩ := by
    rw [← ht]
    change (S.traced.tells _ Field.time).or _ = _
    rw [tells_eq_none rfl, Option.none_or]
    simp only [Function.update_self]
  have hquery : ∃ rest, t.query = S.traced.strip (line, j) :: rest := by
    rw [← ht, hcollects, hcons]
    exact ⟨_, rfl⟩
  have hready : t.Ready (b ++ timeLine :: body).length := by
    refine ⟨Or.inr (nonempty_of_isSome (by rw [htimeField]; rfl)), ?_⟩
    rw [← ht, List.length_append, List.length_cons, Nat.add_comm body.length, ← Nat.add_assoc]
    exact ((grounded_none b.length).timed time).untimed hsolid body
  refine ⟨hready, t.row S.traced, ?_, fun lines hcontained => ?_⟩
  · rcases hquery with ⟨rest, hquery⟩
    unfold State.finish
    rw [hready.collected, hquery]
    exact List.mem_append_right _ (List.mem_singleton.mpr rfl)
  · rcases hquery with ⟨rest, hquery⟩
    have hrow : (t.row S.traced) .query = some (S.traced.join t.query) := Function.update_self ..
    have htext : (S.traced.join t.query).text ≠ [] := by
      rw [hquery]
      exact hsolid.join line _ hstart
    have hplace : j ∈ (S.traced.join t.query).places := by
      rw [hquery]
      exact List.mem_cons_self
    have htimeRow : (t.row S.traced) .time = some ⟨time, [b.length]⟩ :=
      (Function.update_of_ne (by decide) ..).trans htimeField
    have hwithin := hcontained _ htimeRow .query _ (by decide) hrow htext _
      (List.mem_singleton.mpr rfl) j hplace
    have hj := (List.mem_zipIdx hmem).2.1
    have hlt := hwithin.1
    omega

/-- No field of a row comes from another entry if and only if nothing is left for
    a later query. -/
theorem noLeak_iff_separate (hS : S.Apart) (hsolid : S.Solid) (lines : List ℓ) :
    S.NoLeak lines ↔ S.Separate lines := by
  rcases exists_blocks lines with ⟨b, entries, heq, hblocks, hb, hentries⟩
  have hfile : S.traced.file [] lines.zipIdx =
      (((entries.flatMap (fun e => e.1 :: e.2)).zipIdx b.length).foldl (State.line S.traced)
        ⟨S.traced.tells b.zipIdx, S.traced.collects false b.zipIdx, []⟩).finish S.traced := by
    rw [Script.file, heq, List.zipIdx_append, List.foldl_append, foldl_first hb, Nat.zero_add]
  unfold Script.NoLeak
  rw [hfile]
  by_cases hfirst : S.hasQuery b = true → ∃ h, S.hasHeader h b = true
  · rcases ready_first hsolid hfirst
      (s := ⟨S.traced.tells b.zipIdx, S.traced.collects false b.zipIdx, []⟩) rfl rfl rfl with
      ⟨hready, hstale, hrows⟩
    have hstale := funext (fun h => propext (hstale h))
    rw [foldl_entries_traced hS hsolid entries hentries b _ heq hready, hstale,
      ← forall_repeats_cons, ← hblocks]
    constructor
    · rintro ⟨-, hrepeats⟩
      refine ⟨fun c d after hc hquery => ?_, hrepeats⟩
      rw [hblocks] at hc
      cases (List.cons.inj hc).1
      exact hfirst hquery
    · intro hseparate
      refine ⟨fun row hrow time ht => ?_, hseparate.repeats⟩
      rw [hrows row hrow] at ht
      cases ht
  · rw [Classical.not_imp] at hfirst
    rcases hfirst with ⟨hquery, hheader⟩
    have hheader : ∀ h, S.hasHeader h b = false :=
      fun h => Bool.eq_false_iff.mpr (fun hh => hheader ⟨h, hh⟩)
    cases entries with
    | nil =>
        -- Without a timestamp there is nothing to write.
        have hfinish : State.finish S.traced
            ⟨S.traced.tells b.zipIdx, S.traced.collects false b.zipIdx, []⟩ = [] := by
          rw [tells_eq_of_hasHeader (fun h => (hasHeader_traced h b 0).trans (hheader h))]
          rfl
        constructor
        · intro _
          refine ⟨fun c d after hc => ?_, ?_⟩
          · rw [hblocks] at hc
            cases (List.cons.inj hc).2
          · rw [hblocks]
            exact forall_repeats_cons.mpr ⟨repeats_nil, forall_repeats_nil⟩
        · intro _ row hrow
          exact absurd (hfinish ▸ hrow) List.not_mem_nil
    | cons e entries =>
        rcases List.forall_mem_cons.mp hentries with ⟨⟨htime, hbody⟩, hentries⟩
        rcases not_contained_first hS hsolid hquery hheader htime hbody
          (s := ⟨S.traced.tells b.zipIdx, S.traced.collects false b.zipIdx, []⟩) rfl rfl rfl with
          ⟨hready, row, hrow, hnot⟩
        rw [List.flatMap_cons] at heq
        rw [List.flatMap_cons, List.zipIdx_append, List.foldl_append, ← List.length_append,
          foldl_entries_traced hS hsolid entries hentries _ _ (by rw [heq, List.append_assoc])
            hready]
        constructor
        · exact fun h => absurd (h.1 row hrow) (hnot lines)
        · intro hseparate
          rcases hseparate.first b e.2 _ hblocks hquery with ⟨h, hh⟩
          rw [hheader h] at hh
          cases hh

end

/-! ### The script -/

/-- What the last group captures is not empty. -/
theorem group_ne_nil {r : Regex Char} {rs : List (Regex Char)} {line : Line}
    {m : List (List Char)} {n : Nat} (hm : (concat (rs ++ [.group r])).captures line = some m)
    (hbalanced : (concat (rs ++ [.group r])).balanced = true)
    (hgroups : (concat (rs ++ [.group r])).groups = n)
    (hr : ∀ s t cs, Reads r s t cs → t.length < s.length) : group m n ≠ [] := by
  rcases reads_of_captures hm with ⟨t, hreads⟩
  have hlength := hreads.length_captures hbalanced
  rcases hreads.last_capture hr with ⟨ds, w, rfl, hw⟩
  rw [List.length_append, List.length_singleton, hgroups] at hlength
  unfold group
  rw [← hlength, Nat.add_sub_cancel]
  simpa using hw

/-- `strip` keeps what is no white space. -/
theorem mem_strip {s : List Char} {c : Char} (hc : c ∈ s) (hspace : isSpace c = false) :
    c ∈ strip s := by
  have hdrop {s : List Char} (hc : c ∈ s) : c ∈ s.dropWhile isSpace := by
    rw [← List.takeWhile_append_dropWhile (p := isSpace) (l := s)] at hc
    rcases List.mem_append.mp hc with hc | hc
    · rw [List.mem_takeWhile_imp hc] at hspace
      cases hspace
    · exact hc
  exact List.mem_reverse.mpr (hdrop (List.mem_reverse.mpr (hdrop hc)))

theorem python_solid (digit : Char → Bool) : (python digit).Solid where
  id := by
    intro line user host id h
    rcases Option.map_eq_some_iff.mp h with ⟨m, hm, heq⟩
    cases heq
    -- The group is `\d+`, which matches no empty text.
    refine group_ne_nil hm ?_ ?_ ?_
    · simp [concat, balanced, balanced_literal, spaces]
    · simp [concat, groups, groups_literal, spaces]
    · intro s t cs hreads
      cases hreads with
      | seq _ _ _ u _ _ _ hstar hchar =>
          cases hstar
          cases hchar
          simp only [List.length_append, List.length_cons]
          omega
  rowsExamined := by
    intro line queryTime lockTime rowsSent rowsExamined h
    rcases Option.map_eq_some_iff.mp h with ⟨m, hm, heq⟩
    cases heq
    refine group_ne_nil hm ?_ ?_ ?_
    · simp [concat, balanced, balanced_literal, spaces, plus]
    · simp [concat, groups, groups_literal, spaces, plus]
    · intro s t cs hreads
      cases hreads with
      | seq _ _ _ u _ _ _ hchar hstar =>
          cases hstar
          cases hchar
          simp only [List.length_append, List.length_cons]
          omega
  join := by
    intro line rest h
    -- The first letter of the query is no space, so no `strip` takes it away.
    rcases exists_of_queryStart h with ⟨c, u, rfl, -, hc⟩
    have hmem : c ∈ strip (c :: u) := mem_strip List.mem_cons_self hc
    refine List.ne_nil_of_mem (mem_strip (List.mem_flatten.mpr ⟨_, ?_, hmem⟩) hc)
    cases rest with
    | nil => exact List.mem_cons_self
    | cons line rest => exact List.mem_cons_self

/-- In any file, every field of a row with a time comes from the lines of its entry
    if and only if no block leaves a header that the next query does not have
    itself, nor a query without a header before the first entry. -/
theorem noLeak_iff (digit : Char → Bool) (lines : List Line) :
    (python digit).NoLeak lines ↔ (python digit).Separate lines :=
  noLeak_iff_separate (python_apart digit) (python_solid digit) lines

/-- The user of an entry without a query is given to the next one. -/
theorem noLeak_stale : ¬ (python Char.isDigit).NoLeak ["# Time: 2025-02-18T12:34:56\n".toList,
    "# User@Host: alice[alice] @ [10.0.0.1] Id: 7\n".toList, "COMMIT;\n".toList,
    "# Time: 2025-02-18T12:34:57\n".toList, "SELECT 1;\n".toList] := by
  have hrow : ∃ row ∈ (python Char.isDigit).traced.file []
      (["# Time: 2025-02-18T12:34:56\n".toList,
        "# User@Host: alice[alice] @ [10.0.0.1] Id: 7\n".toList, "COMMIT;\n".toList,
        "# Time: 2025-02-18T12:34:57\n".toList, "SELECT 1;\n".toList].zipIdx),
      row .time = some ⟨"2025-02-18T12:34:57".toList, [3]⟩ ∧
        row .user = some ⟨"alice".toList, [1]⟩ := by
    decide +kernel
  rcases hrow with ⟨row, hmem, htime, huser⟩
  intro h
  have hwithin := h row hmem _ htime .user _ (by decide) huser (by decide) 3
    (List.mem_singleton.mpr rfl) 1 (List.mem_singleton.mpr rfl)
  exact absurd hwithin.1 (by decide)

end ParseMysqlSlowQuery

end BlogSample
