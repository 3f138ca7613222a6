import BlogSample.LargeFileUploadSample.Upload
import BlogSample.Theory.Tally
import BlogSample.Theory.Transition
import Mathlib.Algebra.Order.Field.Rat
import Mathlib.Data.List.Nodup

/-!
# The Progress of an Upload

What `upload.js` shows of an upload. The loop has started a `FileReader` for
each chunk, so the handlers `onloadend` run in any order. Each sends its chunk
and waits for the promise of `uploadChunk`, then counts the chunk and calls
`updateProgress`.

`fetch` rejects only when there is no answer at all. An error status and the
message `Invalid file chunk` resolve the promise as well, since the answer is
only written to the console. So `uploadCnt` counts the requests with an answer,
and the value 1 means that none has failed in the network.

## Main definitions

* `Page`: The page during an upload.
* `updateProgress`: The value shown, and the alert.
* `step`: The handlers, one step for each time that one goes on.
* `Truthful`: Completion is reported only of an upload that is stored.

## Theorems

* `step_cases`: What a step can do.
* `Sound.of_reachable`: What is counted, and what is known of it.
* `alerts_ne_nil_iff`: The alert comes with the value 1.
* `exists_reported`: Completion is reported if no request fails in the network.
* `truthful_iff`: When the report is right.
-/

namespace BlogSample

namespace LargeFileUploadSample

open Transition

/-- What comes of a request. -/
inductive Outcome where
  | answered (message : Message)
  | httpError
  | networkFailure
  deriving DecidableEq, Repr

/-- How far the handler of a chunk is. -/
inductive Phase where
  | reading
  | requested
  | resolved
  | finished
  | rejected
  deriving DecidableEq, Repr

/-- What the handlers wait for. -/
inductive Event where
  | loadEnd (index : Nat)
  | settle (index : Nat)
  | resume (index : Nat)

/-- The page during an upload: its handlers, the answers that have come, the
    counter, the values that `updateProgress` was called with and the alerts. -/
structure Page where
  phase : Nat → Phase
  answer : Nat → Option Outcome
  uploadCnt : Nat
  progress : List ℚ
  alerts : List String

/-- The page when the loop has started all readers. -/
def Page.start : Page where
  phase _ := .reading
  answer _ := none
  uploadCnt := 0
  progress := []
  alerts := []

/-- The promise of `uploadChunk` once `fetch` is settled. -/
def uploadChunk : Outcome → Phase
  | .answered _ => .resolved
  -- `fetch` resolves on every status, and nothing looks at it.
  | .httpError => .resolved
  | .networkFailure => .rejected

/-- `updateProgress(progress)`. -/
def updateProgress (progress : ℚ) (s : Page) : Page :=
  { s with
    progress := s.progress ++ [progress]
    alerts := if progress = 1 then s.alerts ++ ["File upload complete!!"] else s.alerts }

variable {α : Type}

/-- A handler has its answer: it counts the chunk and shows the progress. -/
def count (file : List α) (i : Nat) (s : Page) : Page :=
  updateProgress (((s.uploadCnt + 1 : Nat) : ℚ) / (totalChunks file : ℚ))
    { s with phase := Function.update s.phase i .finished, uploadCnt := s.uploadCnt + 1 }

/-- A handler goes on. -/
def step (file : List α) (outcome : Nat → Outcome) (s : Page) : Event → Option Page
  -- The reader is done, and the chunk is sent.
  | .loadEnd i =>
      if i < totalChunks file ∧ s.phase i = .reading then
        some { s with phase := Function.update s.phase i .requested }
      else none
  -- The answer comes, or there will be none.
  | .settle i =>
      if i < totalChunks file ∧ s.phase i = .requested then
        some { s with
          phase := Function.update s.phase i (uploadChunk (outcome i))
          answer := Function.update s.answer i (some (outcome i)) }
      else none
  -- Only a promise that is resolved goes on after `await`.
  | .resume i =>
      if i < totalChunks file ∧ s.phase i = .resolved then
        some (count file i s)
      else none

/-- The upload of a file whose requests have the given outcomes. -/
def uploading (file : List α) (outcome : Nat → Outcome) : System Page Event :=
  .ofFn (fun s => s = .start) (step file outcome)

/-- `updateProgress` was called with 1 only if each chunk's request was answered by
    a successful store. -/
def Truthful (file : List α) (s : Page) : Prop :=
  1 ∈ s.progress → ∀ i < totalChunks file,
    s.answer i = some (.answered .chunkUploadedSuccessfully)

variable {file : List α} {outcome : Nat → Outcome} {s s' : Page}

@[simp]
theorem count_phase (i : Nat) : (count file i s).phase = Function.update s.phase i .finished :=
  rfl

@[simp]
theorem count_answer (i : Nat) : (count file i s).answer = s.answer :=
  rfl

/-- A step is one of a handler that has not finished, and leaves the others. -/
theorem step_cases {e : Event} (h : step file outcome s e = some s') :
    ∃ i < totalChunks file,
      (s.phase i = .reading ∧ s' = { s with phase := Function.update s.phase i .requested }) ∨
      (s.phase i = .requested ∧ s' = { s with
        phase := Function.update s.phase i (uploadChunk (outcome i))
        answer := Function.update s.answer i (some (outcome i)) }) ∨
      (s.phase i = .resolved ∧ s' = count file i s) := by
  cases e with
  | loadEnd i =>
      rw [step, Option.ite_none_right_eq_some, Option.some.injEq] at h
      exact ⟨i, h.1.1, .inl ⟨h.1.2, h.2.symm⟩⟩
  | settle i =>
      rw [step, Option.ite_none_right_eq_some, Option.some.injEq] at h
      exact ⟨i, h.1.1, .inr (.inl ⟨h.1.2, h.2.symm⟩)⟩
  | resume i =>
      rw [step, Option.ite_none_right_eq_some, Option.some.injEq] at h
      exact ⟨i, h.1.1, .inr (.inr ⟨h.1.2, h.2.symm⟩)⟩

theorem step_loadEnd {i : Nat} (hi : i < totalChunks file) (h : s.phase i = .reading) :
    step file outcome s (.loadEnd i) =
      some { s with phase := Function.update s.phase i .requested } :=
  if_pos ⟨hi, h⟩

theorem step_settle {i : Nat} (hi : i < totalChunks file) (h : s.phase i = .requested) :
    step file outcome s (.settle i) = some { s with
      phase := Function.update s.phase i (uploadChunk (outcome i))
      answer := Function.update s.answer i (some (outcome i)) } :=
  if_pos ⟨hi, h⟩

theorem step_resume {i : Nat} (hi : i < totalChunks file) (h : s.phase i = .resolved) :
    step file outcome s (.resume i) = some (count file i s) :=
  if_pos ⟨hi, h⟩

/-! ### What is counted -/

/-- A finished handler has counted its chunk. -/
def Phase.counted : Phase → Nat
  | .finished => 1
  | _ => 0

theorem Phase.counted_le_one (p : Phase) : p.counted ≤ 1 := by
  cases p <;> decide

theorem Phase.counted_eq_zero {p : Phase} (h : p ≠ .finished) : p.counted = 0 := by
  cases p with
  | finished => exact absurd rfl h
  | _ => rfl

theorem Phase.counted_eq_one_iff {p : Phase} : p.counted = 1 ↔ p = .finished := by
  cases p <;> decide

/-- The handlers that have counted their chunk. -/
def counted (file : List α) (phase : Nat → Phase) : Nat :=
  tally (fun i => (phase i).counted) (List.range (totalChunks file))

theorem counted_update (phase : Nat → Phase) (p : Phase) {i : Nat} (hi : i < totalChunks file) :
    counted file (Function.update phase i p) + (phase i).counted =
      counted file phase + p.counted := by
  refine tally_update id Phase.counted phase i p ?_ ?_
  · rw [List.map_id]
    exact List.nodup_range
  · rw [List.map_id]
    exact List.mem_range.mpr hi

/-- What holds of an upload at any time. -/
structure Sound (file : List α) (outcome : Nat → Outcome) (s : Page) : Prop where
  uploadCnt : s.uploadCnt = counted file s.phase
  answer : ∀ i, s.phase i = .resolved ∨ s.phase i = .finished →
    s.answer i = some (outcome i) ∧ outcome i ≠ .networkFailure
  full : 1 ∈ s.progress → ∀ i < totalChunks file, s.phase i = .finished

namespace Sound

theorem start : Sound file outcome .start where
  uploadCnt := by
    refine (Nat.eq_zero_of_not_pos (fun h => ?_)).symm
    rcases (tally_pos_iff _ _).mp h with ⟨i, _, hi⟩
    exact Nat.lt_irrefl 0 hi
  answer i h := by rcases h with h | h <;> cases h
  full h := absurd h List.not_mem_nil

/-- A handler that goes on and has nothing to count. -/
theorem update (h : Sound file outcome s) {i : Nat} (hi : i < totalChunks file) {p : Phase}
    {answer : Nat → Option Outcome} (hphase : s.phase i ≠ .finished) (hp : p ≠ .finished)
    (hanswer : ∀ j, j ≠ i → answer j = s.answer j)
    (hresolved : p = .resolved → answer i = some (outcome i) ∧ outcome i ≠ .networkFailure) :
    Sound file outcome { s with phase := Function.update s.phase i p, answer := answer } where
  uploadCnt := by
    have hcount := counted_update s.phase p hi
    rw [Phase.counted_eq_zero hphase, Phase.counted_eq_zero hp, Nat.add_zero,
      Nat.add_zero] at hcount
    exact h.uploadCnt.trans hcount.symm
  answer j hj := by
    by_cases hji : j = i
    · simp only [hji, Function.update_self] at hj ⊢
      exact hresolved (hj.resolve_right hp)
    · simp only [Function.update_of_ne hji] at hj
      simp only [hanswer j hji]
      exact h.answer j hj
  full h1 := absurd (h.full h1 i hi) hphase

/-- A handler that counts its chunk. If the value is 1, no other one is left. -/
theorem count (h : Sound file outcome s) {i : Nat} (hi : i < totalChunks file)
    (hphase : s.phase i = .resolved) : Sound file outcome (count file i s) := by
  have hne : s.phase i ≠ .finished := by
    rw [hphase]
    decide
  have hcount : s.uploadCnt + 1 = counted file (Function.update s.phase i .finished) := by
    have hupdate := counted_update s.phase .finished hi
    rw [Phase.counted_eq_zero hne, Nat.add_zero, ← h.uploadCnt] at hupdate
    exact hupdate.symm
  refine ⟨hcount, fun j hj => ?_, fun h1 => ?_⟩
  · by_cases hji : j = i
    · rw [hji]
      exact h.answer i (.inl hphase)
    · rw [count_phase, Function.update_of_ne hji] at hj
      exact h.answer j hj
  · rcases List.mem_append.mp h1 with h1 | h1
    · exact absurd (h.full h1 i hi) hne
    -- All handlers have counted, so all have finished.
    · have htotal : ((totalChunks file : Nat) : ℚ) ≠ 0 := Nat.cast_ne_zero.mpr (by omega)
      rw [List.mem_singleton, eq_comm, div_eq_one_iff_eq htotal, Nat.cast_inj, hcount] at h1
      intro j hj
      have hone := eq_one_of_length_le_tally (fun j _ => Phase.counted_le_one _)
        (Nat.le_of_eq (List.length_range.trans h1.symm)) j (List.mem_range.mpr hj)
      exact Phase.counted_eq_one_iff.mp hone

theorem of_reachable (h : (uploading file outcome).Reachable s) : Sound file outcome s := by
  refine System.Reachable.invariant (Sound file outcome) ?_ ?_ h
  · rintro _ rfl
    exact start
  · intro s e s' hs hstep
    rcases step_cases hstep with ⟨i, hi, ⟨hphase, rfl⟩ | ⟨hphase, rfl⟩ | ⟨hphase, rfl⟩⟩
    · refine hs.update hi ?_ (by decide) (fun _ _ => rfl) (fun h => by cases h)
      rw [hphase]
      decide
    · refine hs.update hi ?_ ?_ (fun j hj => Function.update_of_ne hj ..) (fun hp => ?_)
      · rw [hphase]
        decide
      · cases outcome i with
        | _ => exact Phase.noConfusion
      · refine ⟨Function.update_self .., fun hfail => ?_⟩
        rw [hfail] at hp
        cases hp
    · exact hs.count hi hphase

end Sound

/-! ### What the value 1 means -/

/-- There is an alert if `updateProgress` was called with 1. -/
theorem alerts_ne_nil_iff (h : (uploading file outcome).Reachable s) :
    s.alerts ≠ [] ↔ 1 ∈ s.progress := by
  refine System.Reachable.invariant (fun s => s.alerts ≠ [] ↔ 1 ∈ s.progress) ?_ ?_ h
  · rintro _ rfl
    exact iff_of_false (fun h => h rfl) List.not_mem_nil
  · intro s e s' hs hstep
    rcases step_cases hstep with ⟨i, _, ⟨_, rfl⟩ | ⟨_, rfl⟩ | ⟨_, rfl⟩⟩
    · exact hs
    · exact hs
    · unfold count updateProgress
      rw [List.mem_append, List.mem_singleton, ← hs]
      split_ifs with hone
      · exact iff_of_true (List.append_ne_nil_of_right_ne_nil _ (List.cons_ne_nil _ _))
          (.inr hone.symm)
      · exact (or_iff_left (Ne.symm hone)).symm

/-- The handlers one after the other, up to an index. If no request fails in the
    network, each counts its chunk, whatever the answer is. -/
theorem exists_reachable (hnet : ∀ i < totalChunks file, outcome i ≠ .networkFailure) (n : Nat)
    (hn : n ≤ totalChunks file) :
    ∃ s, (uploading file outcome).Reachable s ∧ s.uploadCnt = n ∧
      (∀ i, n ≤ i → s.phase i = .reading) ∧ (∀ i < n, s.answer i = some (outcome i)) ∧
      (0 < n → (n : ℚ) / (totalChunks file : ℚ) ∈ s.progress) := by
  induction n with
  | zero =>
      refine ⟨.start, .init _ rfl, rfl, fun _ _ => rfl, fun i hi => ?_, fun h => ?_⟩
      · exact absurd hi (Nat.not_lt_zero i)
      · exact absurd h (Nat.lt_irrefl 0)
  | succ n ih =>
      rcases ih (by omega) with ⟨s, hreach, hcnt, hphase, hanswer, -⟩
      have hn : n < totalChunks file := hn
      have hresolved : uploadChunk (outcome n) = .resolved := by
        have hne := hnet n hn
        cases ho : outcome n with
        | answered message => rfl
        | httpError => rfl
        | networkFailure => exact absurd ho hne
      -- The reader is done, the answer comes and the handler goes on.
      have hload := hreach.step _ _ _ (step_loadEnd hn (hphase n (Nat.le_refl n)))
      have hsettle := hload.step _ _ _ (step_settle hn (Function.update_self ..))
      have hresume := hsettle.step _ _ _
        (step_resume hn ((Function.update_self ..).trans hresolved))
      refine ⟨_, hresume, congrArg (· + 1) hcnt, fun i hi => ?_, fun i hi => ?_, fun _ => ?_⟩
      · have hin : i ≠ n := by omega
        simp only [count_phase, Function.update_of_ne hin]
        exact hphase i (by omega)
      · by_cases hin : i = n
        · rw [hin]
          exact Function.update_self ..
        · simp only [count_answer, Function.update_of_ne hin]
          exact hanswer i (by omega)
      · rw [← hcnt]
        exact List.mem_append_right _ (List.mem_singleton_self _)

/-- An upload without a network failure reports completion in some order of its
    steps, with the answers that have come. -/
theorem exists_reported (hnet : ∀ i < totalChunks file, outcome i ≠ .networkFailure)
    (hpos : 0 < totalChunks file) :
    ∃ s, (uploading file outcome).Reachable s ∧ 1 ∈ s.progress ∧
      ∀ i < totalChunks file, s.answer i = some (outcome i) := by
  rcases exists_reachable hnet _ (Nat.le_refl _) with ⟨s, hreach, -, -, hanswer, hlast⟩
  have hone := hlast hpos
  rw [div_self (Nat.cast_ne_zero.mpr (by omega))] at hone
  exact ⟨s, hreach, hone, hanswer⟩

/-- The report of completion is right in every order of the steps just when all
    chunks are stored or a request fails in the network. -/
theorem truthful_iff (file : List α) (outcome : Nat → Outcome) :
    (∀ s, (uploading file outcome).Reachable s → Truthful file s) ↔
      (∀ i < totalChunks file, outcome i = .answered .chunkUploadedSuccessfully) ∨
        ∃ i < totalChunks file, outcome i = .networkFailure := by
  constructor
  · intro h
    by_cases hnet : ∃ i < totalChunks file, outcome i = .networkFailure
    · exact .inr hnet
    · refine .inl (fun i hi => ?_)
      have hall : ∀ i < totalChunks file, outcome i ≠ .networkFailure :=
        fun i hi hfail => hnet ⟨i, hi, hfail⟩
      rcases exists_reported hall (by omega) with ⟨s, hreach, hone, hanswer⟩
      have hstored := h s hreach hone i hi
      rw [hanswer i hi] at hstored
      exact Option.some.inj hstored
  · rintro (hstored | ⟨i, hi, hfail⟩) s hreach hone
    · intro i hi
      have hsound := Sound.of_reachable hreach
      rw [(hsound.answer i (.inr (hsound.full hone i hi))).1, hstored i hi]
    -- The handler of the failed request never counts its chunk.
    · have hsound := Sound.of_reachable hreach
      exact absurd hfail (hsound.answer i (.inr (hsound.full hone i hi))).2

/-- A file of one byte whose request is answered with an error status. -/
theorem reported_with_error : ¬ ∀ (file : List Nat) (outcome : Nat → Outcome) (s : Page),
    (uploading file outcome).Reachable s → Truthful file s := by
  intro h
  have htotal : totalChunks [0] = 1 := by
    unfold totalChunks chunkSize
    rw [List.length_singleton]
  have hpos : 0 < totalChunks [0] := Nat.lt_of_lt_of_eq Nat.one_pos htotal.symm
  have hnet : ∀ i < totalChunks [0], (fun _ => Outcome.httpError) i ≠ .networkFailure := by
    exact fun _ _ => Outcome.noConfusion
  rcases exists_reported hnet hpos with ⟨s, hreach, hone, hanswer⟩
  have hstored := h _ _ s hreach hone 0 hpos
  rw [hanswer 0 hpos] at hstored
  cases hstored

end LargeFileUploadSample

end BlogSample
