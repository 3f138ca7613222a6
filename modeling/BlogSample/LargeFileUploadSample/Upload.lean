import Mathlib.Data.List.Basic
import Mathlib.Logic.Function.Basic

/-!
# Uploads in Chunks

`uploadFileInChunks` of `upload.js` and `HomeController.Upload`. The client cuts
a file into chunks and sends each with its index and the number of all. The
server keeps a chunk in a temporary file whose name is the index, whichever
file the chunk is of.

The requests of any number of uploads may be served in any order, each in one
step. What is in a temporary file is then the chunk that was served last with
its index.

## Main definitions

* `uploadFileInChunks`: The requests for a file.
* `upload`: A request at the server.
* `serve`: Requests one after the other.

## Theorems

* `uploadFileInChunks_eq`: One request for each chunk.
* `flatten_chunks`: The chunks make up the file.
* `serve_apply`: What is in a temporary file.
* `acknowledged_kept`: An acknowledged chunk is kept until another upload's chunk
  with this index is served.
-/

namespace BlogSample

namespace LargeFileUploadSample

/-- `CHUNK_SIZE`. -/
def chunkSize : Nat :=
  10 * 1024 * 1024

/-- The fields of a request. -/
structure FileUploadViewModel (α : Type) where
  fileChunk : Option (List α)
  index : Int
  totalChunks : Int
  deriving DecidableEq

/-- The message of an answer. -/
inductive Message where
  | chunkUploadedSuccessfully
  | invalidFileChunk
  deriving DecidableEq, Repr

/-- The files in `wwwroot/temp`, by the index that is their name. -/
abbrev TempFolder (α : Type) := Int → Option (List α)

section

variable {α : Type}

/-- `Math.ceil(file.size / CHUNK_SIZE)`. -/
def totalChunks (file : List α) : Nat :=
  (file.length + (chunkSize - 1)) / chunkSize

/-- `file.slice(start, end)`. -/
def slice (file : List α) (start stop : Nat) : List α :=
  (file.drop start).take (stop - start)

/-- The loop through the file from a position on. -/
def requestsFrom (file : List α) (start : Nat) : List (FileUploadViewModel α) :=
  if start < file.length then
    { fileChunk := some (slice file start (min (start + chunkSize) file.length))
      index := (start / chunkSize : Nat)
      totalChunks := totalChunks file } :: requestsFrom file (start + chunkSize)
  else []
termination_by file.length - start
decreasing_by
  unfold chunkSize
  omega

/-- `uploadFileInChunks(file)`. -/
def uploadFileInChunks (file : List α) : List (FileUploadViewModel α) :=
  requestsFrom file 0

/-- `Upload(viewModel)`. -/
def upload (temp : TempFolder α) (viewModel : FileUploadViewModel α) : TempFolder α × Message :=
  match viewModel.fileChunk with
  | some chunk =>
      if chunk.length > 0 then
        -- `FileMode.Create` replaces a file that is there.
        (Function.update temp viewModel.index (some chunk), .chunkUploadedSuccessfully)
      else (temp, .invalidFileChunk)
  | none => (temp, .invalidFileChunk)

/-- Requests one after the other, each with the upload that it is of. -/
def serve {ι : Type} (temp : TempFolder α) (log : List (ι × FileUploadViewModel α)) :
    TempFolder α :=
  log.foldl (fun temp p => (upload temp p.2).1) temp

/-! ### The requests for a file -/

/-- The chunk with an index. -/
def chunk (file : List α) (i : Nat) : List α :=
  (file.drop (i * chunkSize)).take chunkSize

/-- The request for the chunk with an index. -/
def request (file : List α) (i : Nat) : FileUploadViewModel α where
  fileChunk := some (chunk file i)
  index := i
  totalChunks := totalChunks file

theorem lt_totalChunks_iff (file : List α) (i : Nat) :
    i < totalChunks file ↔ i * chunkSize < file.length := by
  unfold totalChunks chunkSize
  omega

theorem chunk_ne_nil {file : List α} {i : Nat} (h : i < totalChunks file) : chunk file i ≠ [] := by
  rw [lt_totalChunks_iff] at h
  rw [← List.length_pos_iff]
  unfold chunk
  rw [List.length_take, List.length_drop]
  unfold chunkSize at *
  omega

theorem requestsFrom_eq (file : List α) (i : Nat) :
    requestsFrom file (i * chunkSize) =
      (List.range' i (totalChunks file - i)).map (request file) := by
  -- The induction is on the number of chunks that are left.
  generalize hn : totalChunks file - i = n
  induction n generalizing i with
  | zero =>
      have hle : ¬ i * chunkSize < file.length := by
        rw [← lt_totalChunks_iff]
        omega
      rw [requestsFrom, if_neg hle]
      rfl
  | succ n ih =>
      have hlt : i * chunkSize < file.length := by
        rw [← lt_totalChunks_iff]
        omega
      have hslice : slice file (i * chunkSize) (min (i * chunkSize + chunkSize) file.length) =
          chunk file i := by
        unfold slice chunk
        rw [List.take_eq_take_iff, List.length_drop]
        omega
      have hindex : i * chunkSize / chunkSize = i :=
        Nat.mul_div_cancel i (by unfold chunkSize; omega)
      rw [requestsFrom, if_pos hlt, hslice, hindex, ← Nat.succ_mul, ih (i + 1) (by omega),
        List.range'_succ]
      rfl

/-- There is one request for each chunk. -/
theorem uploadFileInChunks_eq (file : List α) :
    uploadFileInChunks file = (List.range (totalChunks file)).map (request file) := by
  have h := requestsFrom_eq file 0
  rw [Nat.zero_mul, Nat.sub_zero] at h
  rw [List.range_eq_range']
  exact h

/-- Together the chunks are the file. -/
theorem flatten_chunks (file : List α) :
    ((List.range (totalChunks file)).map (chunk file)).flatten = file := by
  -- The first chunks are the first part of the file.
  have htake : ∀ n, ((List.range n).map (chunk file)).flatten = file.take (n * chunkSize) := by
    intro n
    induction n with
    | zero => simp
    | succ n ih =>
        rw [List.range_succ, List.map_append, List.flatten_append, ih, Nat.succ_mul, List.take_add]
        simp [chunk]
  rw [htake]
  refine List.take_of_length_le ?_
  have h := lt_totalChunks_iff file (totalChunks file)
  omega

theorem mem_uploadFileInChunks {file : List α} {r : FileUploadViewModel α} :
    r ∈ uploadFileInChunks file ↔ ∃ i < totalChunks file, r = request file i := by
  rw [uploadFileInChunks_eq, List.mem_map]
  constructor
  · rintro ⟨i, hi, rfl⟩
    exact ⟨i, List.mem_range.mp hi, rfl⟩
  · rintro ⟨i, hi, rfl⟩
    exact ⟨i, List.mem_range.mpr hi, rfl⟩

/-! ### The server -/

/-- The request for a chunk is acknowledged. -/
theorem upload_request (temp : TempFolder α) {file : List α} {i : Nat}
    (hi : i < totalChunks file) :
    upload temp (request file i) =
      (Function.update temp i (some (chunk file i)), .chunkUploadedSuccessfully) := by
  unfold upload
  exact if_pos (List.length_pos_iff.mpr (chunk_ne_nil hi))

/-- A request leaves the files with another index. -/
theorem upload_apply_of_ne (temp : TempFolder α) (r : FileUploadViewModel α) {i : Int}
    (hi : r.index ≠ i) : (upload temp r).1 i = temp i := by
  unfold upload
  split
  · split_ifs
    · exact Function.update_of_ne hi.symm ..
    · rfl
  · rfl

section

variable {ι : Type} {file : ι → List α} {temp : TempFolder α}

theorem serve_append (log log' : List (ι × FileUploadViewModel α)) :
    serve temp (log ++ log') = serve (serve temp log) log' :=
  List.foldl_append

theorem serve_cons (p : ι × FileUploadViewModel α) (log : List (ι × FileUploadViewModel α)) :
    serve temp (p :: log) = serve (upload temp p.2).1 log :=
  rfl

/-- A chunk stays in its file while no other upload's chunk with its index comes. -/
theorem serve_apply {a : ι} {i : Nat} (log : List (ι × FileUploadViewModel α))
    (hlog : ∀ p ∈ log, p.2 ∈ uploadFileInChunks (file p.1))
    (hother : ∀ p ∈ log, p.1 ≠ a → p.2.index ≠ i)
    (htemp : temp i = some (chunk (file a) i)) : serve temp log i = some (chunk (file a) i) := by
  induction log generalizing temp with
  | nil => exact htemp
  | cons p log ih =>
      rcases List.forall_mem_cons.mp hlog with ⟨hp, hlog⟩
      rcases List.forall_mem_cons.mp hother with ⟨hpother, hother⟩
      rw [serve_cons]
      refine ih hlog hother ?_
      by_cases hindex : p.2.index = i
      -- Another request for the same chunk.
      · have hpa : p.1 = a := by
          by_contra hpa
          exact hpother hpa hindex
        rcases mem_uploadFileInChunks.mp hp with ⟨j, hj, hr⟩
        have hji : j = i := by
          rw [hr] at hindex
          exact Int.ofNat.inj hindex
        rw [hr, upload_request temp hj, hji, hpa]
        exact Function.update_self ..
      · rw [upload_apply_of_ne temp p.2 hindex]
        exact htemp

/-- Of any uploads whose requests are served in any order: every request is
    acknowledged, and its chunk is in the temporary file as long as no request of
    another upload with the same index follows. One that follows puts its own chunk
    there, and an upload has none if its file ends before this index. -/
theorem acknowledged_kept {log before after : List (ι × FileUploadViewModel α)} {a : ι}
    {r : FileUploadViewModel α} (hlog : ∀ p ∈ log, p.2 ∈ uploadFileInChunks (file p.1))
    (hsplit : log = before ++ (a, r) :: after) :
    (upload (serve temp before) r).2 = .chunkUploadedSuccessfully ∧
    ((∀ p ∈ after, p.1 ≠ a → p.2.index ≠ r.index) → serve temp log r.index = r.fileChunk) ∧
    (∀ mid b r' rest, after = mid ++ (b, r') :: rest → r'.index = r.index →
      serve temp (before ++ (a, r) :: (mid ++ [(b, r')])) r.index = r'.fileChunk) ∧
    ∀ b, (file b).length ≤ r.index * chunkSize → ∀ p ∈ after, p.1 = b → p.2.index ≠ r.index := by
  rw [hsplit, List.forall_mem_append, List.forall_mem_cons] at hlog
  rcases hlog with ⟨-, hr, hafter⟩
  rcases mem_uploadFileInChunks.mp hr with ⟨i, hi, hreq⟩
  have hi : i < totalChunks (file a) := hi
  have hreq : r = request (file a) i := hreq
  refine ⟨?_, fun hother => ?_, ?_, ?_⟩
  -- A request of the script has an index within its bounds.
  · rw [hreq, upload_request _ hi]
  -- The others write other files.
  · rw [hreq] at hother ⊢
    rw [hsplit, serve_append, serve_cons, hreq, upload_request _ hi]
    exact serve_apply after hafter hother (Function.update_self ..)
  -- The last request of the index decides, whoever it is from.
  · rintro mid b r' rest rfl hindex
    have hr' := hafter (b, r') (List.mem_append_right _ List.mem_cons_self)
    rcases mem_uploadFileInChunks.mp hr' with ⟨j, hj, hreq'⟩
    have hj : j < totalChunks (file b) := hj
    have hreq' : r' = request (file b) j := hreq'
    rw [← List.cons_append, ← List.append_assoc, serve_append, serve_cons, ← hindex, hreq',
      upload_request _ hj]
    exact Function.update_self ..
  -- A smaller upload has no chunk of this index.
  · rintro b hlength p hp rfl hindex
    rcases mem_uploadFileInChunks.mp (hafter p hp) with ⟨j, hj, hreq'⟩
    rw [lt_totalChunks_iff] at hj
    rw [hreq', hreq] at hindex
    have hji : j = i := Int.ofNat.inj hindex
    rw [hreq] at hlength
    have hle : ((file p.1).length : Int) ≤ ((i * chunkSize : Nat) : Int) := by
      rw [Int.natCast_mul]
      exact hlength
    rw [hji] at hj
    omega

end

end

/-- The only chunk of a file of one byte. -/
theorem uploadFileInChunks_singleton {α : Type} (x : α) :
    uploadFileInChunks [x] = [⟨some [x], 0, 1⟩] := by
  have htotal : totalChunks [x] = 1 := by
    unfold totalChunks chunkSize
    rw [List.length_singleton]
  have hchunk : chunk [x] 0 = [x] := List.take_of_length_le (by unfold chunkSize; simp)
  rw [uploadFileInChunks_eq, htotal, List.range_one, List.map_singleton, request, hchunk, htotal]
  rfl

/-- Two files of one byte: the chunk of the second replaces the acknowledged one of
    the first. -/
theorem acknowledged_overwritten : ¬ ∀ (file : Bool → List Nat)
    (log before after : List (Bool × FileUploadViewModel Nat)) (a : Bool)
    (r : FileUploadViewModel Nat), file false ≠ file true →
      (∀ p ∈ log, p.2 ∈ uploadFileInChunks (file p.1)) → log = before ++ (a, r) :: after →
      (upload (serve (fun _ => none) before) r).2 = .chunkUploadedSuccessfully →
        serve (fun _ => none) log r.index = r.fileChunk := by
  intro h
  have hkept := h (fun b => if b then [2] else [1])
    [(false, ⟨some [1], 0, 1⟩), (true, ⟨some [2], 0, 1⟩)] [] [(true, ⟨some [2], 0, 1⟩)] false
    ⟨some [1], 0, 1⟩ (by decide) (by simp [uploadFileInChunks_singleton]) rfl rfl
  exact absurd hkept (by decide)

/-- A file of two chunks, the second of one byte. -/
@[irreducible] def twoChunks : List Nat :=
  List.replicate chunkSize 1 ++ [2]

theorem one_lt_totalChunks : 1 < totalChunks twoChunks := by
  rw [lt_totalChunks_iff, twoChunks, List.length_append, List.length_replicate,
    List.length_singleton]
  omega

theorem chunk_twoChunks : chunk twoChunks 1 = [2] := by
  rw [chunk, twoChunks, Nat.one_mul, List.drop_left' List.length_replicate]
  exact List.take_of_length_le (by unfold chunkSize; simp)

/-- The file of one byte and the file of two chunks. -/
def uploads : Bool → List Nat
  | true => [3]
  | false => twoChunks

/-- A file of one byte comes after the second chunk of another file: it replaces the
    first chunk, and the second is kept. -/
theorem acknowledged_kept_interleaved :
    serve (fun _ => none) [(false, request twoChunks 0), (false, request twoChunks 1),
      (true, request [3] 0)] 1 = some [2] := by
  have hmem : ∀ b i, i < totalChunks (uploads b) →
      request (uploads b) i ∈ uploadFileInChunks (uploads b) := fun b i hi =>
    mem_uploadFileInChunks.mpr ⟨i, hi, rfl⟩
  have hlog : ∀ p ∈ [(false, request (uploads false) 0), (false, request (uploads false) 1),
      (true, request (uploads true) 0)], p.2 ∈ uploadFileInChunks (uploads p.1) := by
    intro p hp
    simp only [List.mem_cons, List.not_mem_nil, or_false] at hp
    rcases hp with rfl | rfl | rfl
    · exact hmem false 0 (Nat.zero_lt_of_lt one_lt_totalChunks)
    · exact hmem false 1 one_lt_totalChunks
    · exact hmem true 0 (by decide)
  have hsplit : [(false, request (uploads false) 0), (false, request (uploads false) 1),
      (true, request (uploads true) 0)] = [(false, request (uploads false) 0)] ++
        (false, request (uploads false) 1) :: [(true, request (uploads true) 0)] := rfl
  have hkept : serve (fun _ => none) _ _ = _ :=
    (acknowledged_kept hlog hsplit).2.1 (fun p hp _ => ?_)
  · exact hkept.trans (congrArg some chunk_twoChunks)
  · rw [List.mem_singleton.mp hp]
    exact Int.zero_ne_one

end LargeFileUploadSample

end BlogSample
