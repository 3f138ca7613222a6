import BlogSample.BitConverter

/-!
# Messages over a Pipe

`PipeStreamWrapper` sends every message as a frame: the length of its bytes
and the bytes. A read from the pipe returns at least one byte and at most as
many as it is asked for, in the order they were written; how many is up to
the pipe, and a `Delivery` is any way it may go. A read from an empty pipe
waits, and at the end of the stream it returns nothing.

`MessagePack` is a library the wrapper calls. What it has to do is to give
every message back from its bytes.

## Main definitions

* `MessagePack`: Messages and their bytes.
* `Delivery`: How many bytes are there when they are read.
* `Reader`: A wrapper that is read from.
* `readLengthAsync`, `readAsync`, `writeAsync`: The methods.
* `Payload`, `frame`, `frames`: What is written.

## Theorems

* `readAsync_header_short`: A length that is not read whole.
* `readAsync_body`: What comes after a length that is read whole.
* `readAsync_frame`, `readAsync_whole`: A frame, and one that is read whole.
* `shifted_length`: A length that is read too early.
-/

namespace BlogSample

namespace PipeStreamWrapper

open DotNet

/-- Messages and their bytes. -/
structure MessagePack (M : Type) where
  serialize : M → List UInt8
  deserialize : List UInt8 → Except Exn M
  deserialize_serialize : ∀ m, deserialize (serialize m) = .ok m

/-- How many bytes are there when the pipe is read for the first time, the
    second time and so on, if it is not at its end. -/
structure Delivery where
  ready : Nat → Nat
  pos : ∀ i, 1 ≤ ready i

/-- A wrapper that is read from: the bytes still to be read, whether the
    stream ends there, how often the pipe has been read, and the field
    `_isConnected`. -/
structure Reader where
  delivery : Delivery
  bytes : List UInt8
  closed : Bool
  reads : Nat
  isConnected : Bool

/-- A new wrapper, with some bytes in the pipe. -/
def Reader.new (delivery : Delivery) (bytes : List UInt8) (closed : Bool) : Reader :=
  ⟨delivery, bytes, closed, 0, true⟩

/-- `BaseStream.ReadAsync(buffer, 0, count)`, or nothing if it does not
    return. -/
def Reader.read (count : Nat) (r : Reader) : Option (List UInt8 × Reader) :=
  if r.bytes = [] then
    if r.closed then some ([], { r with reads := r.reads + 1 }) else none
  else
    let n := min (r.delivery.ready r.reads) count
    some (r.bytes.take n, { r with bytes := r.bytes.drop n, reads := r.reads + 1 })

/-- `new byte[count]` with some bytes at its start. -/
def fill (count : Nat) (bytes : List UInt8) : List UInt8 :=
  bytes ++ List.replicate (count - bytes.length) 0

/-- `ReadLengthAsync()`. -/
def readLengthAsync (r : Reader) : Option (Except Exn Int × Reader) :=
  match r.read 4 with
  | none => none
  | some (bytes, r) =>
      if bytes.length = 0 then some (.ok 0, { r with isConnected := false })
      else if bytes.length ≠ 4 then some (.error .io, r)
      else some (.ok (networkToHostOrder (toInt32 (fill 4 bytes))), r)

/-- `ReadAsync<TModel>()`, or nothing if it does not return. -/
def readAsync {M : Type} [Inhabited M] (deserialize : List UInt8 → Except Exn M) (r : Reader) :
    Option (Except Exn M × Reader) :=
  match readLengthAsync r with
  | none => none
  | some (.error e, r) => some (.error e, r)
  | some (.ok len, r) =>
      if len = 0 then some (.ok default, r)
      else if len < 0 then some (.error .overflow, r)
      else if maxLength < len then some (.error .outOfMemory, r)
      else
        match r.read len.toNat with
        | none => none
        | some (bytes, r) => some (deserialize (fill len.toNat bytes), r)

/-- `WriteLengthAsync(len)`: the bytes that are written. -/
def writeLengthAsync (len : Nat) : List UInt8 :=
  getBytes (hostToNetworkOrder len)

/-- `WriteAsync<TModel>(obj)`: the bytes that have been written after it. -/
def writeAsync {M : Type} (serialize : M → List UInt8) (written : List UInt8) (obj : M) :
    List UInt8 :=
  written ++ (writeLengthAsync (serialize obj).length ++ serialize obj)

/-- The bytes of a message: at least one, and no more than an array can have. -/
structure Payload where
  data : List UInt8
  ne : data ≠ []
  le : data.length ≤ maxLength

namespace Payload

/-- The bytes that are written for a message. -/
def frame (p : Payload) : List UInt8 :=
  writeLengthAsync p.data.length ++ p.data

/-- The bytes that are written for some messages. -/
def frames (ps : List Payload) : List UInt8 :=
  (ps.map frame).flatten

theorem length_pos (p : Payload) : 0 < p.data.length :=
  List.length_pos_iff.mpr p.ne

/-- A length that an array can have is an `int`. -/
theorem lt (p : Payload) : p.data.length < 2147483648 :=
  Nat.lt_of_le_of_lt p.le (by decide)

theorem frames_cons (p : Payload) (ps : List Payload) :
    frames (p :: ps) = writeLengthAsync p.data.length ++ (p.data ++ frames ps) := by
  unfold frames frame
  rw [List.map_cons, List.flatten_cons, List.append_assoc]

end Payload

/-- Writing messages writes their frames. -/
theorem foldl_writeAsync {M : Type} (serialize : M → List UInt8) (ms : List M) :
    ∀ (ps : List Payload) (written : List UInt8), ms.map serialize = ps.map Payload.data →
      ms.foldl (writeAsync serialize) written = written ++ Payload.frames ps := by
  induction ms with
  | nil =>
      intro ps written h
      rw [List.map_eq_nil_iff.mp h.symm]
      exact (List.append_nil written).symm
  | cons m ms ih =>
      intro ps written h
      cases ps with
      | nil => cases h
      | cons p ps =>
          rw [List.map_cons, List.map_cons, List.cons.injEq] at h
          rw [List.foldl_cons, ih ps _ h.2, Payload.frames_cons]
          unfold writeAsync
          rw [h.1]
          simp only [List.append_assoc]

/-! ### Reads -/

theorem Reader.read_of_ne {r : Reader} (h : r.bytes ≠ []) (count : Nat) :
    r.read count = some (r.bytes.take (min (r.delivery.ready r.reads) count),
      { r with bytes := r.bytes.drop (min (r.delivery.ready r.reads) count)
               reads := r.reads + 1 }) := by
  unfold Reader.read
  rw [if_neg h]

/-- A read gets no more than it asks for. -/
theorem Reader.length_read {r : Reader} {count : Nat} {p : List UInt8 × Reader}
    (h : r.read count = some p) : p.1.length ≤ count := by
  by_cases hne : r.bytes = []
  · unfold Reader.read at h
    rw [if_pos hne] at h
    by_cases hclosed : r.closed = true
    · rw [if_pos hclosed] at h
      rw [← Option.some.inj h]
      exact Nat.zero_le count
    · rw [if_neg hclosed] at h
      cases h
  · rw [Reader.read_of_ne hne] at h
    rw [← Option.some.inj h, List.length_take]
    omega

/-- At the end of a stream a read returns, and leaves the connection alone. -/
theorem Reader.read_closed {r : Reader} (h : r.closed = true) (count : Nat) :
    ∃ p, r.read count = some p ∧ p.2.isConnected = r.isConnected := by
  by_cases hne : r.bytes = []
  · refine ⟨([], { r with reads := r.reads + 1 }), ?_, rfl⟩
    unfold Reader.read
    rw [if_pos hne, if_pos h]
  · exact ⟨_, Reader.read_of_ne hne count, rfl⟩

/-- A read that gets all it asks for. -/
theorem Reader.read_whole {r : Reader} {xs ys : List UInt8} (hbytes : r.bytes = xs ++ ys)
    (hne : xs ≠ []) (hready : xs.length ≤ r.delivery.ready r.reads) :
    r.read xs.length = some (xs, { r with bytes := ys, reads := r.reads + 1 }) := by
  have hne' : r.bytes ≠ [] := by
    rw [hbytes]
    exact List.append_ne_nil_of_left_ne_nil hne ys
  rw [Reader.read_of_ne hne', Nat.min_eq_right hready, hbytes, List.take_left, List.drop_left]

@[simp]
theorem length_writeLengthAsync (n : Nat) : (writeLengthAsync n).length = 4 := rfl

theorem length_fill {n : Nat} {xs : List UInt8} (h : xs.length ≤ n) : (fill n xs).length = n := by
  unfold fill
  rw [List.length_append, List.length_replicate]
  omega

theorem fill_length (xs : List UInt8) : fill xs.length xs = xs := by
  unfold fill
  rw [Nat.sub_self, List.replicate_zero, List.append_nil]

/-- Four bytes are there when the length is read. -/
theorem readLengthAsync_full {r : Reader} (hlen : 4 ≤ r.bytes.length)
    (hready : 4 ≤ r.delivery.ready r.reads) :
    readLengthAsync r = some (.ok (networkToHostOrder (toInt32 (fill 4 (r.bytes.take 4)))),
      { r with bytes := r.bytes.drop 4, reads := r.reads + 1 }) := by
  have hne : r.bytes ≠ [] := by
    intro hnil
    rw [hnil] at hlen
    exact absurd hlen (by decide)
  have htake : (r.bytes.take 4).length = 4 := by
    rw [List.length_take, Nat.min_eq_left hlen]
  unfold readLengthAsync
  rw [Reader.read_of_ne hne, Nat.min_eq_right hready]
  simp only
  rw [if_neg (by rw [htake]; decide), if_neg (fun h => h htake)]

/-- A length that is read whole. -/
theorem readLengthAsync_whole {r : Reader} {n : Nat} {rest : List UInt8} (hn : n < 2147483648)
    (hbytes : r.bytes = writeLengthAsync n ++ rest) (hready : 4 ≤ r.delivery.ready r.reads) :
    readLengthAsync r = some (.ok n, { r with bytes := rest, reads := r.reads + 1 }) := by
  have hlen : 4 ≤ r.bytes.length := by
    rw [hbytes, List.length_append, length_writeLengthAsync]
    omega
  have htake : fill 4 (r.bytes.take 4) = writeLengthAsync n := by
    rw [hbytes]
    exact fill_length (writeLengthAsync n)
  have hdrop : r.bytes.drop 4 = rest := by
    rw [hbytes]
    rfl
  rw [readLengthAsync_full hlen hready, htake, hdrop]
  unfold writeLengthAsync
  rw [networkToHostOrder_header hn]

/-- Less than a length is there to be read. -/
theorem readLengthAsync_short {r : Reader} (hne : r.bytes ≠ [])
    (hshort : r.bytes.length < 4 ∨ r.delivery.ready r.reads < 4) :
    ∃ r', readLengthAsync r = some (.error .io, r') := by
  have hpos := r.delivery.pos r.reads
  have hlen : 0 < r.bytes.length := List.length_pos_iff.mpr hne
  unfold readLengthAsync
  rw [Reader.read_of_ne hne]
  simp only [List.length_take]
  rw [if_neg (by omega), if_pos (by omega)]
  exact ⟨_, rfl⟩

section Frames

variable {M : Type} [Inhabited M] (deserialize : List UInt8 → Except Exn M)

/-- Less than a length is there to be read. -/
theorem readAsync_header_short {r : Reader} (hne : r.bytes ≠ [])
    (hshort : r.bytes.length < 4 ∨ r.delivery.ready r.reads < 4) :
    ∃ r', readAsync deserialize r = some (.error .io, r') := by
  rcases readLengthAsync_short hne hshort with ⟨r', hr'⟩
  refine ⟨r', ?_⟩
  unfold readAsync
  rw [hr']

/-- After a length that is read whole the rest is read at once. -/
theorem readAsync_body {r : Reader} {n : Nat} {rest : List UInt8} (hpos : 0 < n)
    (hn : n ≤ maxLength) (hbytes : r.bytes = writeLengthAsync n ++ rest)
    (hready : 4 ≤ r.delivery.ready r.reads) :
    readAsync deserialize r =
      (Reader.read n { r with bytes := rest, reads := r.reads + 1 }).map
        (fun p => (deserialize (fill n p.1), p.2)) := by
  unfold readAsync
  rw [readLengthAsync_whole (Nat.lt_of_le_of_lt hn (by decide)) hbytes hready]
  simp only
  rw [if_neg (by omega), if_neg (by omega), if_neg (by omega), Int.toNat_natCast]
  cases Reader.read n { r with bytes := rest, reads := r.reads + 1 } with
  | none => rfl
  | some p => rfl

/-- A frame of which a part of the bytes is there when they are read. -/
theorem readAsync_frame {r : Reader} {p : Payload} {rest : List UInt8}
    (hbytes : r.bytes = writeLengthAsync p.data.length ++ (p.data ++ rest))
    (hready : 4 ≤ r.delivery.ready r.reads)
    (hshort : r.delivery.ready (r.reads + 1) ≤ p.data.length) :
    readAsync deserialize r = some
      (deserialize (fill p.data.length (p.data.take (r.delivery.ready (r.reads + 1)))),
        { r with bytes := p.data.drop (r.delivery.ready (r.reads + 1)) ++ rest
                 reads := r.reads + 2 }) := by
  have hne : p.data ++ rest ≠ [] := List.append_ne_nil_of_left_ne_nil p.ne rest
  rw [readAsync_body deserialize p.length_pos p.le hbytes hready, Reader.read_of_ne hne]
  simp only [Option.map_some, Nat.min_eq_left hshort]
  rw [List.take_append_of_le_length hshort, List.drop_append_of_le_length hshort]

/-- A frame that is read whole. -/
theorem readAsync_whole {r : Reader} {p : Payload} {rest : List UInt8}
    (hbytes : r.bytes = writeLengthAsync p.data.length ++ (p.data ++ rest))
    (hready : 4 ≤ r.delivery.ready r.reads)
    (hwhole : p.data.length ≤ r.delivery.ready (r.reads + 1)) :
    readAsync deserialize r = some
      (deserialize p.data, { r with bytes := rest, reads := r.reads + 2 }) := by
  rw [readAsync_body deserialize p.length_pos p.le hbytes hready,
    Reader.read_whole rfl p.ne hwhole, Option.map_some, fill_length]

end Frames

/-- Bytes with zeros for some that are missing are the same bytes, if these
    are zeros. -/
theorem fill_take {xs : List UInt8} {k : Nat} (hk : k ≤ xs.length) :
    fill xs.length (xs.take k) = xs ↔ ∀ b ∈ xs.drop k, b = 0 := by
  unfold fill
  rw [List.length_take, Nat.min_eq_left hk]
  have hsplit := List.take_append_drop k xs
  constructor
  · intro h b hb
    have hdrop : xs.drop k = List.replicate (xs.length - k) 0 := by
      have hboth : xs.take k ++ List.replicate (xs.length - k) 0 = xs.take k ++ xs.drop k := by
        rw [h, hsplit]
      exact (List.append_cancel_left hboth).symm
    rw [hdrop] at hb
    exact List.eq_of_mem_replicate hb
  · intro h
    have hdrop : xs.drop k = List.replicate (xs.length - k) 0 := by
      refine List.eq_replicate_iff.mpr ⟨List.length_drop, h⟩
    rw [← hdrop, hsplit]

/-! ### A length that is read too early -/

/-- A length of which the high byte is zero. -/
theorem length_zero_first (b c d : UInt8) :
    networkToHostOrder (toInt32 (fill 4 [0, b, c, d]))
      = (65536 * b.toNat + 256 * c.toNat + d.toNat : Nat) := by
  have hb := b.toNat_lt
  have hc := c.toNat_lt
  have hd := d.toNat_lt
  change networkToHostOrder (toInt32 [0, b, c, d]) = _
  rw [networkToHostOrder_toInt32, wrap_of_inRange]
  · simp
  · unfold InRange
    simp
    omega

/-- Zeros in front of a length make a smaller one of it. -/
theorem shifted_length {n t : Nat} (hpos : 0 < n) (hn : n < 2147483648) (ht : 0 < t)
    (rest : List UInt8) :
    ∃ l : Nat, networkToHostOrder (toInt32
      (fill 4 ((List.replicate t 0 ++ (writeLengthAsync n ++ rest)).take 4))) = l ∧ l < n := by
  have hheader : writeLengthAsync n = [UInt8.ofNat (n / 16777216), UInt8.ofNat (n / 65536),
      UInt8.ofNat (n / 256), UInt8.ofNat n] := getBytes_hostToNetworkOrder (by omega)
  have hzero : (0 : UInt8).toNat = 0 := rfl
  rw [hheader]
  match t, ht with
  | 1, _ =>
      refine ⟨_, length_zero_first _ _ _, ?_⟩
      simp only [UInt8.toNat_ofNat']
      omega
  | 2, _ =>
      refine ⟨_, length_zero_first 0 _ _, ?_⟩
      simp only [UInt8.toNat_ofNat', hzero]
      omega
  | 3, _ =>
      refine ⟨_, length_zero_first 0 0 _, ?_⟩
      simp only [UInt8.toNat_ofNat', hzero]
      omega
  | t + 4, _ =>
      refine ⟨_, length_zero_first 0 0 0, ?_⟩
      exact hpos

end PipeStreamWrapper

end BlogSample
