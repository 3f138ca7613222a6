import Mathlib.Data.List.Basic

/-!
# Regular Expressions with Groups

Regular expressions as a backtracking engine runs them. `run` goes through the
expression from left to right and hands what is left of the text to what comes
after it, and where that fails it tries the next way. A star repeats one class
of characters, as many as it can or as few as it can first. The text that a
group goes through is captured.

`Reads` says which ways there are, whatever the order in which they are tried.
A match is one of them, so what holds of all of them holds of what is captured,
and there is a match if there is any.

## Main definitions

* `Regex`: Expressions over any characters.
* `Regex.run`, `Regex.captures`: The engine.
* `Reads`: The ways to read a part of a text.

## Theorems

* `run_some`, `run_ne_none`: The engine follows these ways, and finds one.
* `isSome_captures_iff`: When there is a match.
* `Reads.length_captures`: Each group captures one text.
* `Reads.last_capture`: What a group at the end captures.
-/

namespace BlogSample

universe u v

/-- A regular expression. -/
inductive Regex (α : Type u) where
  | empty
  | char (p : α → Bool)
  | seq (r r' : Regex α)
  | alt (r r' : Regex α)
  | star (greedy : Bool) (p : α → Bool)
  | group (r : Regex α)

namespace Regex

variable {α : Type u} {β : Type v}

/-- Characters of a class, as many as there are or as few as do. -/
def runStar (greedy : Bool) (p : α → Bool) (k : List α → Option β) : List α → Option β
  | [] => k []
  | c :: s =>
      if p c then
        if greedy then (runStar greedy p k s).or (k (c :: s))
        else (k (c :: s)).or (runStar greedy p k s)
      else k (c :: s)

/-- The engine, with what has been captured so far. A group is captured where it
    ends. -/
def run : Regex α → List (List α) → List α → (List (List α) → List α → Option β) → Option β
  | .empty, captures, s, k => k captures s
  | .char _, _, [], _ => none
  | .char p, captures, c :: s, k => if p c then k captures s else none
  | .seq r r', captures, s, k => r.run captures s (fun captures s => r'.run captures s k)
  | .alt r r', captures, s, k => (r.run captures s k).or (r'.run captures s k)
  | .star greedy p, captures, s, k => runStar greedy p (k captures) s
  | .group r, captures, s, k =>
      r.run captures s (fun captures t => k (captures ++ [s.take (s.length - t.length)]) t)

/-- What the groups capture at the start of a text, if there is a match. -/
def captures (r : Regex α) (s : List α) : Option (List (List α)) :=
  r.run [] s (fun captures _ => some captures)

/-- One expression after the other. -/
def concat : List (Regex α) → Regex α
  | [] => .empty
  | r :: rs => .seq r (concat rs)

/-- Some given characters. -/
def literal [BEq α] (w : List α) : Regex α :=
  concat (w.map (fun c => .char (fun d => d == c)))

/-- One or more characters of a class. -/
def plus (p : α → Bool) : Regex α :=
  .seq (.char p) (.star true p)

/-- How many groups there are on any way through the expression. -/
def groups : Regex α → Nat
  | .empty | .char _ | .star _ _ => 0
  | .seq r r' => r.groups + r'.groups
  | .alt r _ => r.groups
  | .group r => r.groups + 1

/-- Do all alternatives have as many groups? -/
def balanced : Regex α → Bool
  | .empty | .char _ | .star _ _ => true
  | .seq r r' => r.balanced && r'.balanced
  | .alt r r' => r.balanced && r'.balanced && r.groups == r'.groups
  | .group r => r.balanced

end Regex

open Regex

section

variable {α : Type u} {β : Type v}

/-- A way from one text to what is left of it, and what is captured on it. -/
inductive Reads : Regex α → List α → List α → List (List α) → Prop
  | empty (s : List α) : Reads .empty s s []
  | char (p : α → Bool) (c : α) (s : List α) (hc : p c = true) : Reads (.char p) (c :: s) s []
  | seq (r r' : Regex α) (s t u : List α) (cs ds : List (List α)) (h : Reads r s t cs)
      (h' : Reads r' t u ds) : Reads (.seq r r') s u (cs ++ ds)
  | left (r r' : Regex α) (s t : List α) (cs : List (List α)) (h : Reads r s t cs) :
      Reads (.alt r r') s t cs
  | right (r r' : Regex α) (s t : List α) (cs : List (List α)) (h : Reads r' s t cs) :
      Reads (.alt r r') s t cs
  | star (greedy : Bool) (p : α → Bool) (w s : List α) (hw : ∀ c ∈ w, p c = true) :
      Reads (.star greedy p) (w ++ s) s []
  | group (r : Regex α) (s t : List α) (cs : List (List α)) (h : Reads r s t cs) :
      Reads (.group r) s t (cs ++ [s.take (s.length - t.length)])

variable {r : Regex α} {s t : List α} {captures : List (List α)}

/-- A star reads characters of its class. -/
theorem runStar_some {greedy : Bool} {p : α → Bool} {k : List α → Option β} {b : β} :
    ∀ s, runStar greedy p k s = some b →
      ∃ w t, s = w ++ t ∧ (∀ c ∈ w, p c = true) ∧ k t = some b := by
  intro s
  induction s with
  | nil => exact fun h => ⟨[], [], rfl, fun _ hc => absurd hc List.not_mem_nil, h⟩
  | cons c s ih =>
      intro h
      have hnone (hk : k (c :: s) = some b) : ∃ w t, c :: s = w ++ t ∧
          (∀ c ∈ w, p c = true) ∧ k t = some b :=
        ⟨[], c :: s, rfl, fun _ hc => absurd hc List.not_mem_nil, hk⟩
      have hmore (hp : p c = true) (hk : runStar greedy p k s = some b) :
          ∃ w t, c :: s = w ++ t ∧ (∀ c ∈ w, p c = true) ∧ k t = some b := by
        rcases ih hk with ⟨w, t, rfl, hw, ht⟩
        exact ⟨c :: w, t, rfl, List.forall_mem_cons.mpr ⟨hp, hw⟩, ht⟩
      rw [runStar] at h
      split_ifs at h with hp hgreedy
      · rcases Option.or_eq_some_iff.mp h with h | ⟨-, h⟩
        · exact hmore hp h
        · exact hnone h
      · rcases Option.or_eq_some_iff.mp h with h | ⟨-, h⟩
        · exact hnone h
        · exact hmore hp h
      · exact hnone h

/-- What the engine returns, it has found at the end of a way. -/
theorem run_some (r : Regex α) : ∀ {captures : List (List α)} {s : List α}
    {k : List (List α) → List α → Option β} {b : β}, r.run captures s k = some b →
      ∃ t cs, Reads r s t cs ∧ k (captures ++ cs) t = some b := by
  induction r with
  | empty =>
      intro captures s k b h
      exact ⟨s, [], .empty s, by rw [List.append_nil]; exact h⟩
  | char p =>
      intro captures s k b h
      cases s with
      | nil => cases h
      | cons c s =>
          rw [run] at h
          split_ifs at h with hp
          exact ⟨s, [], .char p c s hp, by rw [List.append_nil]; exact h⟩
  | seq r r' ih ih' =>
      intro captures s k b h
      rw [run] at h
      rcases ih h with ⟨t, cs, hr, h⟩
      rcases ih' h with ⟨u, ds, hr', h⟩
      exact ⟨u, cs ++ ds, .seq r r' s t u cs ds hr hr', by rw [← List.append_assoc]; exact h⟩
  | alt r r' ih ih' =>
      intro captures s k b h
      rw [run] at h
      -- The second branch is tried when the first one fails.
      rcases Option.or_eq_some_iff.mp h with h | ⟨-, h⟩
      · rcases ih h with ⟨t, cs, hr, h⟩
        exact ⟨t, cs, .left r r' s t cs hr, h⟩
      · rcases ih' h with ⟨t, cs, hr, h⟩
        exact ⟨t, cs, .right r r' s t cs hr, h⟩
  | star greedy p =>
      intro captures s k b h
      -- A star takes some characters of its class, however many are tried first.
      rcases runStar_some s h with ⟨w, t, rfl, hw, ht⟩
      exact ⟨t, [], .star greedy p w t hw, by rw [List.append_nil]; exact ht⟩
  | group r ih =>
      intro captures s k b h
      rw [run] at h
      rcases ih h with ⟨t, cs, hr, h⟩
      exact ⟨t, _, .group r s t cs hr, by rw [← List.append_assoc]; exact h⟩

/-- A star does not give up before all its ways have been tried. -/
theorem runStar_ne_none {greedy : Bool} {p : α → Bool} {k : List α → Option β} {w : List α}
    (hw : ∀ c ∈ w, p c = true) (hk : k t ≠ none) : runStar greedy p k (w ++ t) ≠ none := by
  induction w with
  | nil =>
      rw [List.nil_append]
      cases t with
      | nil => exact hk
      | cons c s =>
          rw [runStar]
          split_ifs with hp hgreedy
          · exact fun h => hk (Option.or_eq_none_iff.mp h).2
          · exact fun h => hk (Option.or_eq_none_iff.mp h).1
          · exact hk
  | cons c w ih =>
      rcases List.forall_mem_cons.mp hw with ⟨hc, hw⟩
      rw [List.cons_append, runStar, if_pos hc]
      split_ifs with hgreedy
      · exact fun h => ih hw (Option.or_eq_none_iff.mp h).1
      · exact fun h => ih hw (Option.or_eq_none_iff.mp h).2

/-- The engine does not give up before all ways have been tried. -/
theorem run_ne_none {cs : List (List α)} (h : Reads r s t cs) :
    ∀ {captures : List (List α)} {k : List (List α) → List α → Option β},
      k (captures ++ cs) t ≠ none → r.run captures s k ≠ none := by
  induction h with
  | empty s =>
      intro captures k hk
      rw [List.append_nil] at hk
      exact hk
  | char p c s hc =>
      intro captures k hk
      rw [List.append_nil] at hk
      rw [run, if_pos hc]
      exact hk
  | seq r r' s t u cs ds _ _ ih ih' =>
      intro captures k hk
      rw [← List.append_assoc] at hk
      exact ih (ih' hk)
  -- Were both branches to fail, so would the one that reads the text.
  | left r r' s t cs _ ih =>
      intro captures k hk hnone
      rw [run] at hnone
      exact ih hk (Option.or_eq_none_iff.mp hnone).1
  | right r r' s t cs _ ih =>
      intro captures k hk hnone
      rw [run] at hnone
      exact ih hk (Option.or_eq_none_iff.mp hnone).2
  | star greedy p w s hw =>
      intro captures k hk
      rw [List.append_nil] at hk
      exact runStar_ne_none hw hk
  | group r s t cs _ ih =>
      intro captures k hk
      rw [← List.append_assoc] at hk
      exact ih hk

/-- A match is a way. -/
theorem reads_of_captures (h : r.captures s = some captures) : ∃ t, Reads r s t captures := by
  rcases run_some r h with ⟨t, cs, hr, hcs⟩
  rw [List.nil_append, Option.some.injEq] at hcs
  exact ⟨t, hcs ▸ hr⟩

/-- There is a match where there is a way. -/
theorem isSome_captures_iff : (r.captures s).isSome = true ↔ ∃ t cs, Reads r s t cs := by
  constructor
  · intro h
    rcases Option.isSome_iff_exists.mp h with ⟨captures, hmatch⟩
    rcases reads_of_captures hmatch with ⟨t, ht⟩
    exact ⟨t, captures, ht⟩
  · rintro ⟨t, cs, h⟩
    exact Option.isSome_iff_ne_none.mpr (run_ne_none h (Option.some_ne_none _))

/-- Each group captures one text. -/
theorem Reads.length_captures {cs : List (List α)} (h : Reads r s t cs)
    (hr : r.balanced = true) : cs.length = r.groups := by
  induction h with
  | empty s => rfl
  | char p c s hc => rfl
  | seq r r' s t u cs ds _ _ ih ih' =>
      rw [balanced, Bool.and_eq_true] at hr
      rw [List.length_append, ih hr.1, ih' hr.2]
      rfl
  | left r r' s t cs _ ih =>
      rw [balanced, Bool.and_eq_true, Bool.and_eq_true] at hr
      exact ih hr.1.1
  | right r r' s t cs _ ih =>
      rw [balanced, Bool.and_eq_true, Bool.and_eq_true, beq_iff_eq] at hr
      exact (ih hr.1.2).trans hr.2.symm
  | star greedy p w s hw => rfl
  | group r s t cs _ ih =>
      rw [List.length_append, ih hr]
      rfl

/-- One expression after the other is read one after the other. -/
theorem reads_concat_append (rs rs' : List (Regex α)) {cs : List (List α)}
    (h : Reads (concat (rs ++ rs')) s t cs) :
    ∃ m ds es, Reads (concat rs) s m ds ∧ Reads (concat rs') m t es ∧ cs = ds ++ es := by
  induction rs generalizing s cs with
  | nil => exact ⟨s, [], cs, .empty s, h, rfl⟩
  | cons r rs ih =>
      cases h with
      | seq _ _ _ m _ cs ds hr hrest =>
          rcases ih hrest with ⟨m', ds', es, hrs, hrs', rfl⟩
          exact ⟨m', cs ++ ds', es, .seq r _ s m m' cs ds' hr hrs, hrs',
            (List.append_assoc _ _ _).symm⟩

/-- What a group at the end captures is not empty, if the group cannot read
    nothing. -/
theorem Reads.last_capture {rs : List (Regex α)} {cs : List (List α)}
    (h : Reads (concat (rs ++ [.group r])) s t cs)
    (hr : ∀ s t cs, Reads r s t cs → t.length < s.length) : ∃ ds w, cs = ds ++ [w] ∧ w ≠ [] := by
  rcases reads_concat_append rs [.group r] h with ⟨m, ds, es, -, hgroup, rfl⟩
  cases hgroup with
  | seq _ _ _ u _ es fs hgroup hempty =>
      cases hempty
      cases hgroup with
      | group _ _ _ es hread =>
          have hlt := hr _ _ _ hread
          refine ⟨ds ++ es, _, by rw [List.append_nil, ← List.append_assoc], ?_⟩
          rw [← List.length_pos_iff, List.length_take]
          omega

theorem groups_literal [BEq α] (w : List α) : (literal w).groups = 0 := by
  unfold literal
  induction w with
  | nil => rfl
  | cons c w ih => exact (Nat.zero_add _).trans ih

theorem balanced_literal [BEq α] (w : List α) : (literal w).balanced = true := by
  unfold literal
  induction w with
  | nil => rfl
  | cons c w ih => exact (Bool.true_and _).trans ih

/-- Some given characters are read as they are. -/
theorem reads_literal_iff [BEq α] [LawfulBEq α] (w : List α) {cs : List (List α)} :
    Reads (literal w) s t cs ↔ s = w ++ t ∧ cs = [] := by
  unfold literal
  induction w generalizing s cs with
  | nil =>
      constructor
      · intro h
        cases h
        exact ⟨rfl, rfl⟩
      · rintro ⟨rfl, rfl⟩
        exact .empty _
  | cons c w ih =>
      constructor
      · intro h
        cases h with
        | seq _ _ _ m _ cs ds hchar hrest =>
            cases hchar with
            | char _ d _ hd =>
                rcases ih.mp hrest with ⟨rfl, rfl⟩
                exact ⟨by rw [eq_of_beq hd]; rfl, rfl⟩
      · rintro ⟨rfl, rfl⟩
        exact .seq _ _ _ (w ++ t) _ [] [] (.char _ c _ (beq_self_eq_true c)) (ih.mpr ⟨rfl, rfl⟩)

end

end BlogSample
