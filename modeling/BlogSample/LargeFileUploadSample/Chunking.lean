import BlogSample.LargeFileUploadSample.Upload
import BlogSample.Theory.Chunks
import BlogSample.Theory.Transition
import Mathlib.Algebra.Order.Field.Rat
import Mathlib.Data.List.Nodup
import Mathlib.Data.List.Perm.Basic

/-!
# The Chunks of an Upload

`uploadFileInChunks` with its callbacks, for any size of the chunks. The loop
starts all readers before any of them is done, since nothing else runs
meanwhile. Then the handlers `onloadend` run in any order, each with the
position and the chunk of its own round of the loop. Only then the index is
worked out and the chunk is sent. Each request succeeds at some time, and its
handler goes on.

## Main definitions

* `Page`: The readers, the handlers that wait, and what has been sent.
* `startReaders`: The loop.
* `step`: A handler runs, or goes on.
* `Sound`: What holds of an upload at any time.
* `contents`: The chunks of some requests, one behind the other.

## Theorems

* `readersFrom_eq`: There is a reader for each chunk.
* `Sound.of_reachable`: What has been sent and what is still to be sent.
* `contents_of_sorted`: In the order of their indices, the chunks are the file.
* `progress_eq_one_iff`: Which call of `updateProgress` is the one with 1.
* `chunks_partition_file`: What an upload sends, in any order of the callbacks.
-/

namespace BlogSample

namespace LargeFileUploadSample

namespace Chunking

open Transition

variable {α : Type}

/-- A round of the loop: `start` and `chunk`, as its handler sees them. -/
structure Reader (α : Type) where
  start : ℕ
  chunk : List α

/-- The page during an upload: the readers that are not done, the handlers that wait for their
    request, all requests that were sent, the counter, the values that `updateProgress` was called
    with, and the alerts. -/
structure Page (α : Type) where
  readers : List (Reader α)
  waiting : List (FileUploadViewModel α)
  sent : List (FileUploadViewModel α)
  uploadCnt : ℕ
  progress : List ℚ
  alerts : List String

/-- `Math.ceil(file.size / CHUNK_SIZE)`. -/
def totalChunks (size : ℕ) (file : List α) : ℕ :=
  Chunks.count size file.length

/-- The loop from a position on. -/
def readersFrom (size : ℕ) (hsize : 0 < size) (file : List α) (start : ℕ) : List (Reader α) :=
  if start < file.length then
    { start := start
      chunk := slice file start (min (start + size) file.length) } ::
        readersFrom size hsize file (start + size)
  else []
termination_by file.length - start
decreasing_by omega

/-- The page when the loop has started all readers. -/
def startReaders (size : ℕ) (hsize : 0 < size) (file : List α) : Page α where
  readers := readersFrom size hsize file 0
  waiting := []
  sent := []
  uploadCnt := 0
  progress := []
  alerts := []

/-- What `uploadChunk(chunk, index)` sends, with the index that the handler works out. -/
def send (size : ℕ) (file : List α) (r : Reader α) : FileUploadViewModel α where
  fileChunk := some r.chunk
  index := (r.start / size : ℕ)
  totalChunks := totalChunks size file

/-- `updateProgress(progress)`. -/
def updateProgress (progress : ℚ) (s : Page α) : Page α :=
  { s with
    progress := s.progress ++ [progress]
    alerts := if progress = 1 then s.alerts ++ ["File upload complete!!"] else s.alerts }

/-- What the handlers wait for. -/
inductive Event where
  | loadEnd (k : ℕ)
  | resume (k : ℕ)

/-- A handler runs up to its `await`, or goes on behind it. -/
def step (size : ℕ) (file : List α) (s : Page α) : Event → Option (Page α)
  | .loadEnd k =>
      match s.readers[k]? with
      | none => none
      | some r =>
          some { s with
            readers := s.readers.eraseIdx k
            waiting := s.waiting ++ [send size file r]
            sent := s.sent ++ [send size file r] }
  | .resume k =>
      if k < s.waiting.length then
        some (updateProgress (((s.uploadCnt + 1 : ℕ) : ℚ) / (totalChunks size file : ℚ))
          { s with waiting := s.waiting.eraseIdx k, uploadCnt := s.uploadCnt + 1 })
      else none

/-- The upload of a file. -/
def uploading (size : ℕ) (hsize : 0 < size) (file : List α) : System (Page α) Event :=
  .ofFn (fun s => s = startReaders size hsize file) (step size file)

/-! ### The readers -/

/-- The reader for the chunk with an index. -/
def reader (size : ℕ) (file : List α) (i : ℕ) : Reader α where
  start := i * size
  chunk := Chunks.chunk size file i

/-- The request for the chunk with an index. -/
def request (size : ℕ) (file : List α) (i : ℕ) : FileUploadViewModel α where
  fileChunk := some (Chunks.chunk size file i)
  index := i
  totalChunks := totalChunks size file

theorem send_reader {size : ℕ} (hsize : 0 < size) (file : List α) (i : ℕ) :
    send size file (reader size file i) = request size file i := by
  rw [send, reader, request, Nat.mul_div_cancel i hsize]

theorem readersFrom_eq {size : ℕ} (hsize : 0 < size) (file : List α) (i : ℕ) :
    readersFrom size hsize file (i * size) =
      (List.range' i (totalChunks size file - i)).map (reader size file) := by
  have hlt := Chunks.lt_count_iff hsize file.length
  -- The induction is on the number of chunks that are left.
  generalize hn : totalChunks size file - i = n
  unfold totalChunks at hn
  induction n generalizing i with
  | zero =>
      rw [readersFrom, if_neg (by rw [← hlt]; omega)]
      rfl
  | succ n ih =>
      rw [readersFrom, if_pos (by rw [← hlt]; omega), slice, Chunks.slice_eq_chunk,
        ← Nat.succ_mul, ih (i + 1) (by omega), List.range'_succ]
      rfl

/-! ### What holds at any time -/

/-- Together, what has been sent and what is still to be sent is one request for each chunk, and
    the handlers that have sent theirs wait or have counted it. -/
structure Sound (size : ℕ) (file : List α) (s : Page α) : Prop where
  perm : (s.sent ++ s.readers.map (send size file)).Perm
    ((List.range (totalChunks size file)).map (request size file))
  count : s.uploadCnt + s.waiting.length = s.sent.length
  progress : s.progress =
    (List.range s.uploadCnt).map (fun k => ((k + 1 : ℕ) : ℚ) / (totalChunks size file : ℚ))
  alerts : s.alerts = (s.progress.filter (fun x => x = 1)).map (fun _ => "File upload complete!!")

namespace Sound

variable {size : ℕ} {file : List α} {s s' : Page α}

theorem start (hsize : 0 < size) (file : List α) :
    Sound size file (startReaders size hsize file) where
  perm := by
    have hreaders := readersFrom_eq hsize file 0
    rw [Nat.zero_mul, Nat.sub_zero, ← List.range_eq_range'] at hreaders
    rw [startReaders, List.nil_append, hreaders, List.map_map]
    refine List.Perm.of_eq (List.map_congr_left (fun i _ => ?_))
    exact send_reader hsize file i
  count := rfl
  progress := rfl
  alerts := rfl

/-- A handler sends its chunk. -/
theorem loadEnd (h : Sound size file s) {k : ℕ} {r : Reader α} (hr : s.readers[k]? = some r) :
    Sound size file { s with
      readers := s.readers.eraseIdx k
      waiting := s.waiting ++ [send size file r]
      sent := s.sent ++ [send size file r] } where
  perm := by
    rcases List.getElem?_eq_some_iff.mp hr with ⟨hk, rfl⟩
    -- The request moves from those that are still to be sent to those that were.
    have hleft := (List.getElem_cons_eraseIdx_perm hk).map (send size file)
    refine List.Perm.trans ?_ h.perm
    change (s.sent ++ [_] ++ (s.readers.eraseIdx k).map (send size file)).Perm _
    rw [List.append_assoc]
    exact hleft.append_left s.sent
  count := by
    have hcount := h.count
    change s.uploadCnt + (s.waiting ++ [_]).length = (s.sent ++ [_]).length
    rw [List.length_append, List.length_append, List.length_singleton]
    omega
  progress := h.progress
  alerts := h.alerts

/-- A handler counts its chunk. -/
theorem resume (h : Sound size file s) {k : ℕ} (hk : k < s.waiting.length) :
    Sound size file (updateProgress (((s.uploadCnt + 1 : ℕ) : ℚ) / (totalChunks size file : ℚ))
      { s with waiting := s.waiting.eraseIdx k, uploadCnt := s.uploadCnt + 1 }) where
  perm := h.perm
  count := by
    have hcount := h.count
    change s.uploadCnt + 1 + (s.waiting.eraseIdx k).length = s.sent.length
    rw [List.length_eraseIdx_of_lt hk]
    omega
  progress := by
    change s.progress ++ [_] = (List.range (s.uploadCnt + 1)).map _
    rw [h.progress, List.range_succ, List.map_append, List.map_singleton]
  alerts := by
    change (if _ then s.alerts ++ _ else s.alerts) = _
    rw [h.alerts]
    change _ = ((s.progress ++ [_]).filter _).map _
    rw [List.filter_append, List.map_append]
    by_cases hone : ((s.uploadCnt + 1 : ℕ) : ℚ) / (totalChunks size file : ℚ) = 1
    · rw [if_pos hone, List.filter_singleton, hone]
      rfl
    · rw [if_neg hone, List.filter_singleton, decide_eq_false hone]
      exact (List.append_nil _).symm

theorem of_reachable {hsize : 0 < size} (h : (uploading size hsize file).Reachable s) :
    Sound size file s := by
  refine System.Reachable.invariant (Sound size file) ?_ ?_ h
  · rintro _ rfl
    exact start hsize file
  · intro s e s' hs hstep
    change step size file s e = some s' at hstep
    cases e with
    | loadEnd k =>
        rw [step] at hstep
        rcases hr : s.readers[k]? with _ | r
        · rw [hr] at hstep
          cases hstep
        · rw [hr] at hstep
          cases hstep
          exact hs.loadEnd hr
    | resume k =>
        rw [step, Option.ite_none_right_eq_some, Option.some.injEq] at hstep
        rcases hstep with ⟨hk, rfl⟩
        exact hs.resume hk

end Sound

/-! ### What is sent -/

/-- The chunks of some requests, one behind the other. -/
def contents (l : List (FileUploadViewModel α)) : List α :=
  (l.map (fun r => r.fileChunk.getD [])).flatten

section

variable {size : ℕ} {file : List α} {s : Page α}

/-- Requests in the order of their indices are those of the chunks in order. -/
theorem contents_of_sorted (hsize : 0 < size) {l : List (FileUploadViewModel α)}
    (hperm : l.Perm ((List.range (totalChunks size file)).map (request size file)))
    (hsorted : l.Pairwise (fun a b => a.index ≤ b.index)) : contents l = file := by
  have hrequests : ((List.range (totalChunks size file)).map (request size file)).Pairwise
      (fun a b => a.index ≤ b.index) := by
    rw [List.pairwise_map]
    exact List.pairwise_le_range.imp (fun h => Int.ofNat_le.mpr h)
  -- Two of the requests with the same index are the same.
  have hanti : ∀ a b, a ∈ l → b ∈ (List.range (totalChunks size file)).map (request size file) →
      a.index ≤ b.index → b.index ≤ a.index → a = b := by
    intro a b ha hb hab hba
    rcases List.mem_map.mp (hperm.mem_iff.mp ha) with ⟨i, _, rfl⟩
    rcases List.mem_map.mp hb with ⟨j, _, rfl⟩
    have hij : i = j := Int.ofNat.inj (Int.le_antisymm hab hba)
    rw [hij]
  rw [hperm.eq_of_pairwise hanti hsorted hrequests, contents, List.map_map]
  exact Chunks.flatten_chunks hsize file

theorem Sound.length (h : Sound size file s) :
    s.sent.length + s.readers.length = totalChunks size file := by
  have hlen := h.perm.length_eq
  rwa [List.length_append, List.length_map, List.length_map, List.length_range] at hlen

theorem Sound.mem_sent (h : Sound size file s) {r : FileUploadViewModel α} (hr : r ∈ s.sent) :
    ∃ i < totalChunks size file, r = request size file i := by
  rcases List.mem_map.mp (h.perm.mem_iff.mp (List.mem_append_left _ hr)) with ⟨i, hi, rfl⟩
  exact ⟨i, List.mem_range.mp hi, rfl⟩

/-- No index is sent twice. -/
theorem Sound.nodup (h : Sound size file s) : (s.sent.map (fun r => r.index)).Nodup := by
  have hindices := h.perm.map (fun r => r.index)
  rw [List.map_append, List.map_map (l := List.range _)] at hindices
  have hrange : ((List.range (totalChunks size file)).map
      ((fun r => r.index) ∘ request size file)).Nodup := by
    refine List.Nodup.map (fun i j hij => ?_) List.nodup_range
    exact Int.ofNat.inj hij
  exact (List.nodup_append.mp (hindices.nodup_iff.mpr hrange)).1

/-- Where all have been sent, there is one request for each chunk. -/
theorem Sound.perm_sent (h : Sound size file s) (hreaders : s.readers = []) :
    s.sent.Perm ((List.range (totalChunks size file)).map (request size file)) := by
  have hperm := h.perm
  rwa [hreaders, List.map_nil, List.append_nil] at hperm

/-! ### The progress -/

/-- The call of `updateProgress` with 1 is the one for as many uploads as there are chunks. -/
theorem progress_eq_one_iff (h : Sound size file s) {k : ℕ} {x : ℚ}
    (hx : s.progress[k]? = some x) : x = 1 ↔ k + 1 = totalChunks size file := by
  rw [h.progress, List.getElem?_map, Option.map_eq_some_iff] at hx
  rcases hx with ⟨j, hj, rfl⟩
  rcases List.getElem?_eq_some_iff.mp hj with ⟨hlt, heq⟩
  rw [List.getElem_range] at heq
  rw [List.length_range] at hlt
  have hcount := h.count
  have hlen := h.length
  -- There has been an upload, so there are chunks.
  have htotal : ((totalChunks size file : ℕ) : ℚ) ≠ 0 := Nat.cast_ne_zero.mpr (by omega)
  rw [div_eq_one_iff_eq htotal, Nat.cast_inj, heq]

/-- There has been a call with 1 just when nothing is left to be done of a file that is not
    empty. -/
theorem one_mem_progress_iff (hsize : 0 < size) (h : Sound size file s) :
    1 ∈ s.progress ↔ file ≠ [] ∧ s.readers = [] ∧ s.waiting = [] := by
  have hcount := h.count
  have hlen := h.length
  have hempty : totalChunks size file = 0 ↔ file = [] := by
    rw [totalChunks, Chunks.count_eq_zero_iff hsize, List.length_eq_zero_iff]
  have hdone : (s.readers = [] ∧ s.waiting = []) ↔ s.uploadCnt = totalChunks size file := by
    rw [← List.length_eq_zero_iff, ← List.length_eq_zero_iff]
    omega
  have hprogress : s.progress.length = s.uploadCnt := by
    rw [h.progress, List.length_map, List.length_range]
  rw [hdone, ne_eq, ← hempty, List.mem_iff_getElem?]
  constructor
  · rintro ⟨k, hk⟩
    have hlast := (progress_eq_one_iff h hk).mp rfl
    have hlt := (List.getElem?_eq_some_iff.mp hk).1
    omega
  · rintro ⟨hne, huploads⟩
    have hlt : totalChunks size file - 1 < s.progress.length := by omega
    refine ⟨totalChunks size file - 1, ?_⟩
    rw [List.getElem?_eq_getElem hlt, Option.some.injEq]
    exact (progress_eq_one_iff h (List.getElem?_eq_getElem hlt)).mpr (by omega)

end

/-! ### The whole upload -/

/-- The steps that are left: two for each reader and one for each handler that waits. -/
def left (s : Page α) : ℕ :=
  2 * s.readers.length + s.waiting.length

section

variable {size : ℕ} {file : List α} {s s' : Page α} {e : Event}

theorem left_step (h : step size file s e = some s') : left s' + 1 = left s := by
  cases e with
  | loadEnd k =>
      rw [step] at h
      rcases hr : s.readers[k]? with _ | r
      · rw [hr] at h
        cases h
      · rw [hr] at h
        cases h
        have hk := (List.getElem?_eq_some_iff.mp hr).1
        change 2 * (s.readers.eraseIdx k).length + (s.waiting ++ [_]).length + 1 = _
        rw [List.length_eraseIdx_of_lt hk, List.length_append, List.length_singleton, left]
        omega
  | resume k =>
      rw [step, Option.ite_none_right_eq_some, Option.some.injEq] at h
      rcases h with ⟨hk, rfl⟩
      change 2 * s.readers.length + (s.waiting.eraseIdx k).length + 1 = _
      rw [List.length_eraseIdx_of_lt hk, left]
      omega

/-- As long as something is left, a handler can go on. -/
theorem exists_step (size : ℕ) (file : List α) (s : Page α) :
    (s.readers = [] ∧ s.waiting = []) ∨ ∃ e s', step size file s e = some s' := by
  rcases hr : s.readers with _ | ⟨r, readers⟩
  · rcases hw : s.waiting with _ | ⟨w, waiting⟩
    · exact .inl ⟨rfl, rfl⟩
    · refine .inr ⟨.resume 0, _, if_pos ?_⟩
      rw [hw]
      exact Nat.succ_pos _
  · have hstep : ∃ s', step size file s (.loadEnd 0) = some s' := by
      rw [step, hr]
      exact ⟨_, rfl⟩
    exact .inr ⟨.loadEnd 0, hstep⟩

/-- From each state the upload can be brought to its end. -/
theorem exists_finished {hsize : 0 < size} (h : (uploading size hsize file).Reachable s) :
    ∃ s', (uploading size hsize file).Reachable s' ∧ s'.readers = [] ∧ s'.waiting = [] := by
  induction hn : left s using Nat.strongRecOn generalizing s with
  | ind n ih =>
      rcases exists_step size file s with hdone | ⟨e, s', hstep⟩
      · exact ⟨s, h, hdone⟩
      · have hleft := left_step hstep
        exact ih (left s') (by omega) (h.step _ _ _ hstep) rfl

end

/-- At any time, the chunks that have been sent have indices of their own in the range, and none
    is empty or too long. When all have been sent, there is one for each index, and in the order
    of their indices they are the file. `updateProgress` is called with 1 for the last upload and
    for no other one. A handler can always go on until nothing is left, after two steps for each
    chunk. -/
theorem chunks_partition_file (size : ℕ) (hsize : 0 < size) (file : List α) (s : Page α)
    (h : (uploading size hsize file).Reachable s) :
    (s.sent.map (fun r => r.index)).Nodup ∧
    (∀ r ∈ s.sent, 0 ≤ r.index ∧ r.index < totalChunks size file ∧
      ∃ chunk, r.fileChunk = some chunk ∧ chunk ≠ [] ∧ chunk.length ≤ size) ∧
    (s.readers = [] →
      (s.sent.map (fun r => r.index)).Perm
        ((List.range (totalChunks size file)).map (fun i : ℕ => (i : Int))) ∧
      ∀ l : List (FileUploadViewModel α), l.Perm s.sent →
        l.Pairwise (fun a b => a.index ≤ b.index) → contents l = file) ∧
    (∀ k x, s.progress[k]? = some x → (x = 1 ↔ k + 1 = totalChunks size file)) ∧
    (1 ∈ s.progress ↔ file ≠ [] ∧ s.readers = [] ∧ s.waiting = []) ∧
    ((s.readers = [] ∧ s.waiting = []) ∨ ∃ e s', step size file s e = some s') ∧
    ∀ e s', step size file s e = some s' → left s' + 1 = left s := by
  have hsound := Sound.of_reachable h
  refine ⟨hsound.nodup, fun r hr => ?_, fun hreaders => ⟨?_, fun l hl hsorted => ?_⟩,
    fun k x hx => progress_eq_one_iff hsound hx, one_mem_progress_iff hsize hsound,
    exists_step size file s, fun e s' hstep => left_step hstep⟩
  · rcases hsound.mem_sent hr with ⟨i, hi, rfl⟩
    exact ⟨Int.natCast_nonneg i, Int.ofNat_lt.mpr hi, _, rfl, Chunks.chunk_ne_nil hsize hi,
      Chunks.length_chunk_le size file i⟩
  · have hindices := (hsound.perm_sent hreaders).map (fun r => r.index)
    rwa [List.map_map] at hindices
  · exact contents_of_sorted hsize (hl.trans (hsound.perm_sent hreaders)) hsorted

/-- A file of five bytes in chunks of two, when all of it has been sent. -/
theorem chunks_partition_file_five :
    ∃ s, (uploading 2 (by decide) [1, 2, 3, 4, 5]).Reachable s ∧ 1 ∈ s.progress ∧
      (s.sent.map (fun r => r.index)).Perm [0, 1, 2] ∧
      ∀ l : List (FileUploadViewModel ℕ), l.Perm s.sent →
        l.Pairwise (fun a b => a.index ≤ b.index) → contents l = [1, 2, 3, 4, 5] := by
  rcases exists_finished (.init _ rfl) with ⟨s, hreach, hreaders, hwaiting⟩
  rcases chunks_partition_file 2 (by decide) [1, 2, 3, 4, 5] s hreach with
    ⟨_, _, hsent, _, hone, _⟩
  have htotal : totalChunks 2 [1, 2, 3, 4, 5] = 3 := rfl
  rw [htotal] at hsent
  exact ⟨s, hreach, hone.mpr ⟨List.cons_ne_nil _ _, hreaders, hwaiting⟩, (hsent hreaders).1,
    (hsent hreaders).2⟩

end Chunking

end LargeFileUploadSample

end BlogSample
