import BlogSample.BitConverter
import BlogSample.PipeStreamWrapper.Framing
import BlogSample.Theory.Fuel

/-!
# The Frame Reader of the Worker

`ReadFromStreamAsync` reads a frame: four bytes for the length, the low one
first, and then as many bytes as the length says. The bytes of the payload are
read in a loop, and those of the length with one read, whose result is not
looked at. A read at the end of the stream returns nothing, and the loop goes
on after it.

So the reader ends unless the length that it takes from its first read is
greater than what is left of the stream. It gives the payload back if the first
read gets the length whole. A part of the length has zeros for the rest, so it
is the same length if it is small enough. What is left of it is then read for
the payload, and these bytes are zeros, so all of the payload has to be.

## Main definitions

* `Stream`: A stream that is read from.
* `readFromStreamAsync`, `writeToStreamAsync`: The methods.
* `Ends`, `Yields`: The reader ends, or returns a payload.
* `Fits`: The stream has as many bytes as the first read says.
* `ReadsHeader`: The first read gets what there is to know of the length.

## Theorems

* `readFromStreamAsync_returns`, `readFromStreamAsync_outOfFuel`,
  `readFromStreamAsync_throws`: What the reader does.
* `ends_iff`: When it ends.
* `yields_iff`: When it gives back what was written.
-/

namespace BlogSample

namespace ContextSwitchExample

namespace ExampleWorker

open DotNet Fuel PipeStreamWrapper

/-- A stream that is read from: how many bytes are there when it is read, the
    bytes up to its end, and how often it has been read. -/
structure Stream where
  delivery : Delivery
  bytes : List UInt8
  reads : Nat

namespace Stream

/-- A stream that has not been read from. -/
def new (delivery : Delivery) (bytes : List UInt8) : Stream :=
  ⟨delivery, bytes, 0⟩

/-- `ReadAsync(buffer, offset, count)`: the bytes that are read, which are none
    at the end of the stream. -/
def read (count : Nat) (s : Stream) : List UInt8 × Stream :=
  let n := min (s.delivery.ready s.reads) count
  (s.bytes.take n, { s with bytes := s.bytes.drop n, reads := s.reads + 1 })

end Stream

/-- The bytes of a buffer after some were read into it from an offset on. -/
def writeAt (buffer : List UInt8) (offset : Nat) (bytes : List UInt8) : List UInt8 :=
  buffer.take offset ++ bytes ++ buffer.drop (offset + bytes.length)

/-- What `new byte[length]` throws. -/
inductive NewArrayException
  | overflow
  | outOfMemory
  deriving DecidableEq

/-- `new byte[length]`. -/
def newBytes (length : Int) : Except NewArrayException (List UInt8) :=
  if length < 0 then throw .overflow
  else if maxLength < length then throw .outOfMemory
  else pure (List.replicate length.toNat 0)

/-- The variables of the loop. -/
@[ext]
structure Body where
  payloadBuffer : List UInt8
  bytesRead : Nat
  stream : Stream

/-- A round of the loop. -/
def readBody (payloadLength : Int) (b : Body) : Call NewArrayException Body :=
  let read := b.stream.read (payloadLength - b.bytesRead).toNat
  pure
    { payloadBuffer := writeAt b.payloadBuffer b.bytesRead read.1
      bytesRead := b.bytesRead + read.1.length
      stream := read.2 }

/-- `ReadFromStreamAsync(stream)`. -/
def readFromStreamAsync (fuel : Nat) (stream : Stream) :
    Call NewArrayException (List UInt8 × Stream) := do
  let lengthBuffer := List.replicate 4 0
  let header := stream.read lengthBuffer.length
  let payloadLength := toInt32 (writeAt lengthBuffer 0 header.1)
  let payloadBuffer ← liftM (newBytes payloadLength)
  let body ← whileLoop (fun b => decide ((b.bytesRead : Int) < payloadLength))
    (readBody payloadLength) fuel ⟨payloadBuffer, 0, header.2⟩
  pure (body.payloadBuffer, body.stream)

/-- A `byte[]`. -/
structure Bytes where
  data : List UInt8
  le : data.length ≤ maxLength

/-- `WriteToStreamAsync(stream, data)`: the bytes that it writes. -/
def writeToStreamAsync (p : Bytes) : List UInt8 :=
  getBytes p.data.length ++ p.data

/-- The reader does not go on reading forever: it returns or throws. -/
def Ends (s : Stream) : Prop :=
  ∃ fuel, (readFromStreamAsync fuel s).run ≠ none

/-- The reader returns the payload. -/
def Yields (s : Stream) (data : List UInt8) : Prop :=
  ∃ s', Terminates (fun fuel => readFromStreamAsync fuel s) (data, s')

/-- How many bytes the first read gets, if the stream has as many. -/
def firstRead (d : Delivery) : Nat :=
  min (d.ready 0) 4

/-- The number that the bytes of the first read are, the low one first. -/
def announced (d : Delivery) (bytes : List UInt8) : Nat :=
  Nat.ofDigits 256 ((bytes.take (firstRead d)).map UInt8.toNat)

/-- The stream has, after the first read, as many bytes as that announces, or it
    announces more than an array can have. -/
def Fits (d : Delivery) (bytes : List UInt8) : Prop :=
  maxLength < announced d bytes ∨ announced d bytes ≤ bytes.length - firstRead d

/-- The first read gets the length whole, or the bytes of it that the first read
    does not get are zeros, and so are those of the payload. -/
def ReadsHeader (d : Delivery) (p : Bytes) : Prop :=
  4 ≤ d.ready 0 ∨ (p.data.length < 256 ^ d.ready 0 ∧ ∀ b ∈ p.data, b = 0)

/-! ### Reads -/

/-- A read gets the next bytes, at least one if there are any and some are asked
    for. -/
theorem Stream.read_spec (count : Nat) (s : Stream) : ∃ k,
    s.read count = (s.bytes.take k, { s with bytes := s.bytes.drop k, reads := s.reads + 1 }) ∧
      k ≤ count ∧ k ≤ s.bytes.length ∧ (0 < count → 0 < s.bytes.length → 0 < k) := by
  have hpos := s.delivery.pos s.reads
  by_cases hle : min (s.delivery.ready s.reads) count ≤ s.bytes.length
  · exact ⟨_, rfl, Nat.min_le_right _ _, hle, by omega⟩
  -- The stream ends before.
  · refine ⟨s.bytes.length, ?_, by omega, Nat.le_refl _, by omega⟩
    unfold Stream.read
    dsimp only
    rw [List.take_of_length_le (by omega), List.drop_of_length_le (by omega), List.take_length,
      List.drop_length]

/-- What the first read gets is put before zeros. -/
theorem header_read (d : Delivery) (bytes : List UInt8) :
    ((Stream.new d bytes).read 4).1 = bytes.take (firstRead d) ∧
      ((Stream.new d bytes).read 4).2.bytes = bytes.drop (firstRead d) :=
  ⟨rfl, rfl⟩

theorem length_header (d : Delivery) (bytes : List UInt8) :
    (bytes.take (firstRead d)).length ≤ 4 := by
  rw [List.length_take]
  unfold firstRead
  omega

/-- The length that is taken from the first read. -/
theorem payloadLength_eq (d : Delivery) (bytes : List UInt8) :
    toInt32 (writeAt (List.replicate 4 0) 0 (bytes.take (firstRead d))) =
      wrap (announced d bytes : Nat) := by
  have hle := length_header d bytes
  have hbuffer : writeAt (List.replicate 4 0) 0 (bytes.take (firstRead d)) =
      fill 4 (bytes.take (firstRead d)) := by
    unfold writeAt fill
    rw [List.take_zero, List.nil_append, List.drop_replicate, Nat.zero_add]
  rw [hbuffer, toInt32_eq_wrap (length_fill hle)]
  unfold fill announced
  rw [List.map_append, List.map_replicate]
  exact congrArg (fun n : Nat => wrap n) (Nat.ofDigits_append_replicate_zero _)

theorem announced_lt (d : Delivery) (bytes : List UInt8) : announced d bytes < 4294967296 := by
  have hle := length_header d bytes
  have hlt := Nat.ofDigits_lt_base_pow_length (b := 256)
    (l := (bytes.take (firstRead d)).map UInt8.toNat) (by decide) (fun x hx => by
      rcases List.mem_map.mp hx with ⟨b, -, rfl⟩
      exact b.toNat_lt)
  rw [List.length_map] at hlt
  have hpow : 256 ^ (bytes.take (firstRead d)).length ≤ 256 ^ 4 :=
    Nat.pow_le_pow_right (by decide) hle
  unfold announced
  omega

/-- A length that no array has is thrown at. -/
theorem newBytes_throws {n : Nat} (hlt : n < 4294967296) (h : maxLength < n) :
    ∃ e, newBytes (wrap n) = .error e := by
  unfold maxLength at h
  unfold newBytes maxLength
  by_cases hsign : n < 2147483648
  · refine ⟨.outOfMemory, ?_⟩
    rw [wrap_of_inRange (by unfold InRange; omega), if_neg (by omega), if_pos (by omega)]
    rfl
  · refine ⟨.overflow, ?_⟩
    have hneg : wrap n < 0 := by
      unfold wrap
      omega
    rw [if_pos hneg]
    rfl

theorem newBytes_returns {n : Nat} (h : n ≤ maxLength) :
    wrap n = n ∧ newBytes n = .ok (List.replicate n 0) := by
  unfold maxLength at h
  refine ⟨wrap_of_inRange (by unfold InRange; omega), ?_⟩
  unfold newBytes maxLength
  rw [if_neg (by omega), if_neg (by omega), Int.toNat_natCast]
  rfl

/-! ### The loop -/

/-- The buffer has the bytes that have been read, and the stream has the
    rest. -/
structure Reading (n : Nat) (bytes : List UInt8) (b : Body) : Prop where
  le : b.bytesRead ≤ n
  read : b.bytesRead ≤ bytes.length
  buffer : b.payloadBuffer = bytes.take b.bytesRead ++ List.replicate (n - b.bytesRead) 0
  rest : b.stream.bytes = bytes.drop b.bytesRead

/-- A round of the loop reads on, if there is anything left. -/
theorem Reading.readBody {n : Nat} {bytes : List UInt8} {b : Body} (h : Reading n bytes b)
    (hlt : b.bytesRead < n) : ∃ b', Returns (readBody n b) b' ∧ Reading n bytes b' ∧
      (b.bytesRead < bytes.length → b.bytesRead < b'.bytesRead) := by
  rcases b.stream.read_spec ((n : Int) - b.bytesRead).toNat with ⟨k, hread, hcount, hlength, hpos⟩
  rw [h.rest, List.length_drop] at hlength hpos
  have hle := h.read
  have hgot : (b.stream.read ((n : Int) - b.bytesRead).toNat).1.length = k := by
    rw [hread, h.rest, List.length_take, List.length_drop]
    omega
  have hbuffer : writeAt b.payloadBuffer b.bytesRead
      (b.stream.read ((n : Int) - b.bytesRead).toNat).1 =
        bytes.take (b.bytesRead + k) ++ List.replicate (n - (b.bytesRead + k)) 0 := by
    have htake : (bytes.take b.bytesRead).length = b.bytesRead := by
      rw [List.length_take, Nat.min_eq_left hle]
    -- What was read before is left alone, and the zeros after it are written over.
    have hdrop : (bytes.take b.bytesRead).drop (b.bytesRead + k) = [] :=
      List.drop_of_length_le (by omega)
    unfold writeAt
    rw [hgot, hread, h.buffer, h.rest, List.take_left' htake, List.take_add, List.drop_append,
      hdrop, htake, List.drop_replicate, List.nil_append, Nat.add_sub_cancel_left, Nat.sub_sub]
  refine ⟨_, .pure _, ?_, fun hmore => ?_⟩
  · refine ⟨?_, ?_, ?_, ?_⟩
    · dsimp only
      rw [hgot]
      omega
    · dsimp only
      rw [hgot]
      omega
    · dsimp only
      rw [hgot]
      exact hbuffer
    · dsimp only
      rw [hgot, hread, h.rest, List.drop_drop]
  · dsimp only
    rw [hgot]
    have hk := hpos (by omega) (by omega)
    omega

/-- Nothing has been read yet. -/
theorem Reading.start (n : Nat) (s : Stream) :
    Reading n s.bytes ⟨List.replicate n 0, 0, s⟩ :=
  ⟨Nat.zero_le _, Nat.zero_le _, rfl, rfl⟩

/-- The loop ends when the stream has enough bytes, with the first of them. -/
theorem readBody_loop {n : Nat} {s : Stream} (hn : n ≤ s.bytes.length) : ∃ s', ∀ fuel, n < fuel →
    Returns (whileLoop (fun b : Body => decide ((b.bytesRead : Int) < n)) (readBody n) fuel
      ⟨List.replicate n 0, 0, s⟩) ⟨s.bytes.take n, n, s'⟩ := by
  have hround : ∀ b, Reading n s.bytes b → decide ((b.bytesRead : Int) < n) = true →
      ∃ b', Returns (readBody n b) b' ∧ Reading n s.bytes b' ∧
        n - b'.bytesRead < n - b.bytesRead := by
    intro b hb hcond
    have hlt := of_decide_eq_true hcond
    rcases hb.readBody (by omega) with ⟨b', hret, hb', hmore⟩
    have hgrows := hmore (by omega)
    have hle := hb'.le
    exact ⟨b', hret, hb', by omega⟩
  rcases whileLoop_returns (Reading n s.bytes) (fun b => n - b.bytesRead) hround
    (Reading.start n s) with ⟨b, hb, hend, hloop⟩
  have hle := hb.le
  have hread : b.bytesRead = n := by
    have hnot := of_decide_eq_false hend
    omega
  have hbuffer := hb.buffer
  rw [hread, Nat.sub_self, List.replicate_zero, List.append_nil] at hbuffer
  have hbody : b = ⟨s.bytes.take n, n, b.stream⟩ := Body.ext hbuffer hread rfl
  refine ⟨b.stream, fun fuel hfuel => ?_⟩
  rw [← hbody]
  exact hloop fuel hfuel

/-- The loop does not end when the stream has fewer bytes. -/
theorem readBody_loop_outOfFuel {n : Nat} {s : Stream} (hn : s.bytes.length < n) (fuel : Nat) :
    (whileLoop (fun b : Body => decide ((b.bytesRead : Int) < n)) (readBody n) fuel
      ⟨List.replicate n 0, 0, s⟩).run = none := by
  refine whileLoop_outOfFuel (Reading n s.bytes) (fun b hb => ?_) fuel _ (Reading.start n s)
  -- There are never as many bytes as the length says, since the stream has not.
  have hread := hb.read
  rcases hb.readBody (by omega) with ⟨b', hret, hb', -⟩
  exact ⟨decide_eq_true (by omega), b', hret, hb'⟩

/-! ### The reader -/

variable {d : Delivery} {bytes : List UInt8}

/-- The loop of the reader, for a length that an array can have. -/
theorem readFromStreamAsync_run (h : announced d bytes ≤ maxLength) (fuel : Nat) :
    (readFromStreamAsync fuel (Stream.new d bytes)).run =
      (whileLoop (fun b : Body => decide ((b.bytesRead : Int) < announced d bytes))
          (readBody (announced d bytes)) fuel
          ⟨List.replicate (announced d bytes) 0, 0, ((Stream.new d bytes).read 4).2⟩ >>=
        fun b => pure (b.payloadBuffer, b.stream)).run := by
  rcases newBytes_returns h with ⟨hlength, hnew⟩
  have hpayload := payloadLength_eq d bytes
  rw [hlength] at hpayload
  unfold readFromStreamAsync
  simp only [List.length_replicate]
  rw [(header_read d bytes).1, hpayload]
  exact (Returns.lift hnew).run_bind

/-- A length that no array can have is thrown at. -/
theorem readFromStreamAsync_throws (h : maxLength < announced d bytes) :
    ∃ e, ∀ fuel, (readFromStreamAsync fuel (Stream.new d bytes)).run = some (.error e) := by
  rcases newBytes_throws (announced_lt d bytes) h with ⟨e, he⟩
  refine ⟨e, fun fuel => ?_⟩
  unfold readFromStreamAsync
  simp only [List.length_replicate]
  rw [(header_read d bytes).1, payloadLength_eq, he]
  rfl

/-- The payload is what comes after the first read. -/
theorem readFromStreamAsync_returns (h : announced d bytes ≤ maxLength)
    (hfits : announced d bytes ≤ bytes.length - firstRead d) :
    Yields (Stream.new d bytes) ((bytes.drop (firstRead d)).take (announced d bytes)) := by
  have hrest := (header_read d bytes).2
  rcases readBody_loop (n := announced d bytes) (s := ((Stream.new d bytes).read 4).2)
    (by rw [hrest, List.length_drop]; exact hfits) with ⟨s', hloop⟩
  refine ⟨s', announced d bytes, fun fuel hfuel => ?_⟩
  unfold Returns
  rw [readFromStreamAsync_run h, (hloop fuel hfuel).run_bind, hrest]
  rfl

/-- A stream that is cut off is read forever. -/
theorem readFromStreamAsync_outOfFuel (h : announced d bytes ≤ maxLength)
    (hcut : bytes.length - firstRead d < announced d bytes) (fuel : Nat) :
    (readFromStreamAsync fuel (Stream.new d bytes)).run = none := by
  have hrest := (header_read d bytes).2
  rw [readFromStreamAsync_run h]
  refine run_bind_of_none _ (readBody_loop_outOfFuel ?_ fuel)
  rw [hrest, List.length_drop]
  exact hcut

/-- The reader ends if and only if the stream has as many bytes as the first
    read says. -/
theorem ends_iff (d : Delivery) (bytes : List UInt8) :
    Ends (Stream.new d bytes) ↔ Fits d bytes := by
  constructor
  · intro hends
    rcases hends with ⟨fuel, hfuel⟩
    by_contra hnot
    unfold Fits at hnot
    exact hfuel (readFromStreamAsync_outOfFuel (by omega) (by omega) fuel)
  · intro hfits
    by_cases hlong : maxLength < announced d bytes
    · rcases readFromStreamAsync_throws hlong with ⟨e, he⟩
      refine ⟨0, ?_⟩
      rw [he]
      exact Option.some_ne_none _
    · have hlength := hfits.resolve_left hlong
      rcases readFromStreamAsync_returns (Nat.le_of_not_lt hlong) hlength with ⟨s', bound, hret⟩
      have hrun : (readFromStreamAsync (bound + 1) (Stream.new d bytes)).run = some _ :=
        hret (bound + 1) (Nat.lt_succ_self bound)
      refine ⟨bound + 1, ?_⟩
      rw [hrun]
      exact Option.some_ne_none _

/-- What the reader returns, if it does, is what comes after the first read. -/
theorem yields_only {data : List UInt8} (h : Yields (Stream.new d bytes) data) :
    announced d bytes ≤ bytes.length - firstRead d ∧
      data = (bytes.drop (firstRead d)).take (announced d bytes) := by
  rcases h with ⟨s', hterminates⟩
  rcases hterminates with ⟨bound, hret⟩
  have hrun : (readFromStreamAsync (bound + 1) (Stream.new d bytes)).run = some (.ok (data, s')) :=
    hret (bound + 1) (Nat.lt_succ_self bound)
  by_cases hlong : maxLength < announced d bytes
  · rcases readFromStreamAsync_throws hlong with ⟨e, he⟩
    rw [he] at hrun
    cases hrun
  · by_cases hfits : announced d bytes ≤ bytes.length - firstRead d
    · rcases readFromStreamAsync_returns (Nat.le_of_not_lt hlong) hfits with ⟨s'', hterminates⟩
      exact ⟨hfits, congrArg Prod.fst (Terminates.unique ⟨bound, hret⟩ hterminates)⟩
    · rw [readFromStreamAsync_outOfFuel (Nat.le_of_not_lt hlong) (Nat.lt_of_not_le hfits)] at hrun
      cases hrun

/-! ### Streams that were written -/

theorem length_getBytes (z : Int) : (getBytes z).length = 4 := rfl

/-- What the first read gets of a stream that was written. -/
theorem take_frame (d : Delivery) (p : Bytes) (rest : List UInt8) :
    (writeToStreamAsync p ++ rest).take (firstRead d) =
        (getBytes p.data.length).take (firstRead d) ∧
      (writeToStreamAsync p ++ rest).drop (firstRead d) =
        (getBytes p.data.length).drop (firstRead d) ++ (p.data ++ rest) := by
  have hle : firstRead d ≤ (getBytes p.data.length).length := Nat.min_le_right _ _
  unfold writeToStreamAsync
  rw [List.append_assoc]
  exact ⟨List.take_append_of_le_length hle, List.drop_append_of_le_length hle⟩

/-- The first read splits the digits of the length. -/
theorem announced_frame (d : Delivery) (p : Bytes) (rest : List UInt8) :
    announced d (writeToStreamAsync p ++ rest) + 256 ^ firstRead d * Nat.ofDigits 256
        (((getBytes p.data.length).drop (firstRead d)).map UInt8.toNat) = p.data.length ∧
      announced d (writeToStreamAsync p ++ rest) < 256 ^ firstRead d := by
  have hle : firstRead d ≤ 4 := Nat.min_le_right _ _
  have hmax := p.le
  unfold maxLength at hmax
  have hlength : (((getBytes p.data.length).take (firstRead d)).map UInt8.toNat).length =
      firstRead d := by
    rw [List.length_map, List.length_take, length_getBytes, Nat.min_eq_left hle]
  have hdigits := ofDigits_getBytes (n := p.data.length) (by omega)
  rw [← List.take_append_drop (firstRead d) (getBytes p.data.length), List.map_append,
    Nat.ofDigits_append, hlength] at hdigits
  unfold announced
  rw [(take_frame d p rest).1]
  refine ⟨hdigits, ?_⟩
  have hlt := Nat.ofDigits_lt_base_pow_length (b := 256)
    (l := ((getBytes p.data.length).take (firstRead d)).map UInt8.toNat) (by decide) (by
      intro x hx
      rcases List.mem_map.mp hx with ⟨b, -, rfl⟩
      exact b.toNat_lt)
  rw [hlength] at hlt
  exact hlt

/-- What the first read does not get of a small length are zeros. -/
theorem drop_getBytes {p : Bytes} (hsmall : p.data.length < 256 ^ firstRead d)
    (rest : List UInt8) : announced d (writeToStreamAsync p ++ rest) = p.data.length ∧
      (getBytes p.data.length).drop (firstRead d) = List.replicate (4 - firstRead d) 0 := by
  rcases announced_frame d p rest with ⟨hsplit, -⟩
  have hzero : Nat.ofDigits 256
      (((getBytes p.data.length).drop (firstRead d)).map UInt8.toNat) = 0 := by
    by_contra hne
    have hle := Nat.le_mul_of_pos_right (256 ^ firstRead d) (Nat.pos_of_ne_zero hne)
    omega
  rw [hzero, Nat.mul_zero, Nat.add_zero] at hsplit
  refine ⟨hsplit, List.eq_replicate_iff.mpr ⟨by rw [List.length_drop, length_getBytes], ?_⟩⟩
  intro b hb
  have hdigit := Nat.digits_zero_of_eq_zero (by decide) hzero b.toNat
    (List.mem_map.mpr ⟨b, hb, rfl⟩)
  exact UInt8.toNat_inj.mp hdigit

/-- Bytes that come after zeros, and are the first that are read there, are
    zeros. -/
theorem eq_zero_of_shift {xs rest : List UInt8} {t : Nat} (ht : 0 < t)
    (h : xs = (List.replicate t 0 ++ (xs ++ rest)).take xs.length) :
    ∀ i, i < xs.length → xs[i]? = some 0 := by
  intro i
  induction i using Nat.strongRecOn with
  | ind i ih =>
      intro hi
      have hget : xs[i]? = (List.replicate t 0 ++ (xs ++ rest))[i]? := by
        conv => left; rw [h]
        exact List.getElem?_take_of_lt hi
      rw [hget]
      by_cases hit : i < t
      · rw [List.getElem?_append_left (by rw [List.length_replicate]; exact hit),
          List.getElem?_replicate, if_pos hit]
      -- The byte is one of those before it.
      · rw [List.getElem?_append_right (by rw [List.length_replicate]; omega),
          List.length_replicate, List.getElem?_append_left (by omega)]
        exact ih (i - t) (by omega) (by omega)

/-- When the reader gives a payload back, its first read gets the length whole,
    or there are zeros only. -/
theorem readsHeader_of_yields {p : Bytes} {rest : List UInt8}
    (h : Yields (Stream.new d (writeToStreamAsync p ++ rest)) p.data) : ReadsHeader d p := by
  rcases yields_only h with ⟨hfits, hdata⟩
  rcases announced_frame d p rest with ⟨hsplit, hlt⟩
  by_cases hwhole : 4 ≤ d.ready 0
  · exact .inl hwhole
  · right
    have hfirst : firstRead d = d.ready 0 := Nat.min_eq_left (by omega)
    -- The part of the length that is read is all of it, since as many bytes come back.
    have hsame : announced d (writeToStreamAsync p ++ rest) = p.data.length := by
      have htake := congrArg List.length hdata
      rw [List.length_take, List.length_drop, Nat.min_eq_left hfits] at htake
      exact htake.symm
    have hsmall : p.data.length < 256 ^ firstRead d := by omega
    rw [hsame, (take_frame d p rest).2, (drop_getBytes hsmall rest).2] at hdata
    refine ⟨hfirst ▸ hsmall, fun b hb => ?_⟩
    rcases List.getElem?_of_mem hb with ⟨i, hi⟩
    have hlti := (List.getElem?_eq_some_iff.mp hi).1
    have hzero := eq_zero_of_shift (t := 4 - firstRead d) (by omega) hdata i hlti
    rw [hi, Option.some.injEq] at hzero
    exact hzero

/-- What the first read gets is all there is to know of the length. -/
theorem ReadsHeader.small {p : Bytes} (h : ReadsHeader d p) :
    p.data.length < 256 ^ firstRead d := by
  have hmax := p.le
  unfold maxLength at hmax
  by_cases hwhole : 4 ≤ d.ready 0
  · rw [show firstRead d = 4 from Nat.min_eq_right hwhole]
    omega
  · rw [show firstRead d = d.ready 0 from Nat.min_eq_left (by omega)]
    rcases h with h | ⟨hsmall, -⟩
    · exact absurd h hwhole
    · exact hsmall

/-- The bytes that are read for the payload are those of it. -/
theorem ReadsHeader.take {p : Bytes} (h : ReadsHeader d p) (rest : List UInt8) :
    (List.replicate (4 - firstRead d) 0 ++ (p.data ++ rest)).take p.data.length = p.data := by
  rcases h with hwhole | ⟨-, hzeros⟩
  · rw [show firstRead d = 4 from Nat.min_eq_right hwhole, Nat.sub_self, List.replicate_zero,
      List.nil_append, List.take_left]
  -- Zeros before zeros are more of them.
  · rw [List.eq_replicate_iff.mpr ⟨rfl, hzeros⟩, ← List.append_assoc,
      List.replicate_append_replicate, List.length_replicate, List.take_append_of_le_length
        (by rw [List.length_replicate]; omega), List.take_replicate, Nat.min_eq_left (by omega)]

/-- When the first read gets the length whole, or there are zeros only, the
    reader gives the payload back. -/
theorem yields_of_readsHeader {p : Bytes} (h : ReadsHeader d p) (rest : List UInt8) :
    Yields (Stream.new d (writeToStreamAsync p ++ rest)) p.data := by
  rcases drop_getBytes h.small rest with ⟨hsame, hdrop⟩
  have hlength : p.data.length ≤ (writeToStreamAsync p ++ rest).length - firstRead d := by
    have hle : firstRead d ≤ 4 := Nat.min_le_right _ _
    unfold writeToStreamAsync
    rw [List.length_append, List.length_append, length_getBytes]
    omega
  have hyields := @readFromStreamAsync_returns d (writeToStreamAsync p ++ rest)
    (hsame ▸ p.le) (hsame ▸ hlength)
  rw [hsame, (take_frame d p rest).2, hdrop, h.take rest] at hyields
  exact hyields

/-- A payload that was written is given back if and only if the first read gets
    the length whole, or all that it does not get is zeros. -/
theorem yields_iff (d : Delivery) (p : Bytes) (rest : List UInt8) :
    Yields (Stream.new d (writeToStreamAsync p ++ rest)) p.data ↔ ReadsHeader d p :=
  ⟨readsHeader_of_yields, fun h => yields_of_readsHeader h rest⟩

/-- The reader ends on a stream if and only if the stream has as many bytes as
    the first read says, and gives back what was written if and only if the
    first read gets what there is to know of the length. -/
theorem worker_reader_iff (d : Delivery) :
    (∀ bytes, Ends (Stream.new d bytes) ↔ Fits d bytes) ∧
      ∀ p rest, Yields (Stream.new d (writeToStreamAsync p ++ rest)) p.data ↔ ReadsHeader d p :=
  ⟨ends_iff d, yields_iff d⟩

/-- A read gets four bytes, if there are as many. -/
def fourAtOnce : Delivery := ⟨fun _ => 4, fun _ => by decide⟩

/-- A payload of one byte. -/
def seven : Bytes := ⟨[7], by decide⟩

/-- A stream that ends after the length of a frame is read forever, and a frame
    that comes byte by byte is not given back. -/
theorem worker_reader_hangs : ¬ Ends (Stream.new fourAtOnce ((writeToStreamAsync seven).take 4)) ∧
    ¬ Yields (Stream.new bytewise (writeToStreamAsync seven)) seven.data := by
  refine ⟨?_, ?_⟩
  · rw [ends_iff]
    intro hfits
    unfold Fits maxLength at hfits
    revert hfits
    decide
  · intro hyields
    rw [← List.append_nil (writeToStreamAsync seven), yields_iff] at hyields
    unfold ReadsHeader at hyields
    revert hyields
    decide

end ExampleWorker

end ContextSwitchExample

end BlogSample
