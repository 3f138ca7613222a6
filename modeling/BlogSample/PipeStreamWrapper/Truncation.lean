import BlogSample.PipeStreamWrapper.Framing

/-!
# A Frame That Is Cut Off

A stream of frames that ends within one. `ReadLengthAsync` notices when it
gets less than four bytes, or none. How much the read of a message gets is
never checked, so a message that is cut off comes out with zeros for the
bytes that were never received, unless the calls have come to an end before.

They come to an end at the first length that is not read whole. That can be a
cut within the length, or any read of a length that gets less than four
bytes. It can also be the one after a short read of a message that lacks
nothing but zeros.

## Main definitions

* `Stops`: A call ends the calls and returns no message.
* `OnlyDelivers`: Nothing but given messages is returned before that.
* `Undelivered`: The frame that is cut off is not returned.
* `StopsInLength`: The calls end with a length that is not read whole.

## Theorems

* `stops_of_short`: A length that is not read whole ends the calls.
* `onlyDelivers_of_stopsInLength`, `stopsInLength_of_onlyDelivers`: What else
  does.
* `undelivered_iff`: When no frame that is cut off is returned.
-/

namespace BlogSample

namespace PipeStreamWrapper

open DotNet

/-- A call throws or finds the pipe disconnected, whatever messages are: it
    deserialises nothing. -/
def Stops (M : Type) [Inhabited M] (r : Reader) : Prop :=
  ∃ r', (∃ e, ∀ deserialize : List UInt8 → Except Exn M,
      readAsync deserialize r = some (.error e, r')) ∨
    r'.isConnected = false ∧ ∀ deserialize : List UInt8 → Except Exn M,
      readAsync deserialize r = some (.ok default, r')

/-- The calls return the messages in their order, until one of them stops. -/
def OnlyDelivers {M : Type} [Inhabited M] (deserialize : List UInt8 → Except Exn M) :
    List M → Reader → Prop
  | [], r => Stops M r
  | m :: ms, r => Stops M r ∨
      ∃ r', readAsync deserialize r = some (.ok m, r') ∧ OnlyDelivers deserialize ms r'

/-- Whatever messages the bytes stand for, nothing but the messages that were
    received is returned. -/
def Undelivered (ps : List Payload) (p : Payload) (cut : Nat) (d : Delivery) : Prop :=
  ∀ (M : Type) [Inhabited M] (c : MessagePack M) (ms : List M),
    ms.map c.serialize = ps.map Payload.data →
    OnlyDelivers c.deserialize ms (Reader.new d (Payload.frames ps ++ p.frame.take cut) true)

/-- From the read with the given number on the messages are read whole until
    a length is not. At the last message but nothing the read may leave out
    zeros, and then the length after it is not read whole. -/
def StopsInLength (d : Delivery) (cut : Nat) : Nat → List Payload → Prop
  | i, [] => cut < 4 ∨ d.ready i < 4
  | i, p :: ps =>
      d.ready i < 4 ∨
      p.data.length ≤ d.ready (i + 1) ∧ StopsInLength d cut (i + 2) ps ∨
      d.ready (i + 1) < p.data.length ∧ (∀ b ∈ p.data.drop (d.ready (i + 1)), b = 0) ∧
        (d.ready (i + 2) < 4 ∨
          p.data.length - d.ready (i + 1) + (Payload.frames ps).length + cut < 4)

/-- A length that is not read whole ends the calls. -/
theorem stops_of_short (M : Type) [Inhabited M] {r : Reader} (hclosed : r.closed = true)
    (hshort : r.bytes.length < 4 ∨ r.delivery.ready r.reads < 4) : Stops M r := by
  by_cases hne : r.bytes = []
  -- At the end of the stream the pipe is disconnected.
  · have hlength : readLengthAsync r
        = some (.ok 0, { r with reads := r.reads + 1, isConnected := false }) := by
      unfold readLengthAsync Reader.read
      rw [if_pos hne, if_pos hclosed]
      rfl
    refine ⟨{ r with reads := r.reads + 1, isConnected := false }, Or.inr ⟨rfl, ?_⟩⟩
    intro deserialize
    unfold readAsync
    rw [hlength]
    rfl
  · rcases readLengthAsync_short hne hshort with ⟨r', hr'⟩
    refine ⟨r', Or.inl ⟨.io, ?_⟩⟩
    intro deserialize
    unfold readAsync
    rw [hr']

/-- A call that returns some bytes does not stop. -/
theorem not_stops {r r' : Reader} {data : List UInt8}
    (h : readAsync Except.ok r = some (.ok data, r')) (hconnected : r'.isConnected = true) :
    ¬ Stops (List UInt8) r := by
  intro hstops
  rcases hstops with ⟨r'', hthrow | hend⟩
  · rcases hthrow with ⟨e, he⟩
    rw [he Except.ok] at h
    cases (Prod.mk.inj (Option.some.inj h)).1
  · rw [hend.2 Except.ok] at h
    rw [← (Prod.mk.inj (Option.some.inj h)).2, hend.1] at hconnected
    cases hconnected

theorem onlyDelivers_of_stops {M : Type} [Inhabited M] {deserialize : List UInt8 → Except Exn M}
    (ms : List M) {r : Reader} (h : Stops M r) : OnlyDelivers deserialize ms r := by
  cases ms with
  | nil => exact h
  | cons m ms => exact Or.inl h

/-- While messages are read whole nothing else is returned. -/
theorem onlyDelivers_of_stopsInLength {M : Type} [Inhabited M] (c : MessagePack M) (ms : List M)
    (rest : List UInt8) : ∀ {ps : List Payload} {r : Reader},
      ms.map c.serialize = ps.map Payload.data → r.bytes = Payload.frames ps ++ rest →
      r.closed = true → StopsInLength r.delivery rest.length r.reads ps →
      OnlyDelivers c.deserialize ms r := by
  induction ms with
  | nil =>
      intro ps r hms hbytes hclosed h
      rw [List.map_eq_nil_iff.mp hms.symm] at h hbytes
      -- What is left is less than a length, or is read in less than four bytes.
      refine stops_of_short M hclosed ?_
      rw [hbytes]
      exact h
  | cons m ms ih =>
      intro ps r hms hbytes hclosed h
      cases ps with
      | nil => cases hms
      | cons p ps =>
          rw [List.map_cons, List.map_cons, List.cons.injEq] at hms
          rw [Payload.frames_cons, List.append_assoc, List.append_assoc] at hbytes
          have hgives : c.deserialize p.data = .ok m := by
            rw [← hms.1]
            exact c.deserialize_serialize m
          by_cases hready : r.delivery.ready r.reads < 4
          -- The length of this message is cut, and nothing follows.
          · exact Or.inl (stops_of_short M hclosed (Or.inr hready))
          · have hready' := Nat.le_of_not_lt hready
            rcases h with h | h | h
            · exact absurd h hready
            · refine Or.inr
                ⟨_, by rw [readAsync_whole c.deserialize hbytes hready' h.1, hgives], ?_⟩
              exact ih hms.2 rfl hclosed h.2
            -- Zeros are missing, and the next length is not read whole.
            · have hshort := Nat.le_of_lt h.1
              have hfill := (fill_take hshort).mpr h.2.1
              refine Or.inr ⟨_, by
                rw [readAsync_frame c.deserialize hbytes hready' hshort, hfill, hgives], ?_⟩
              refine onlyDelivers_of_stops ms (stops_of_short M hclosed ?_)
              rcases h.2.2 with hnext | hnext
              · exact Or.inr hnext
              · refine Or.inl ?_
                simp only [List.length_append, List.length_drop]
                omega

/-- After zeros that were left in the pipe something is returned. -/
theorem readAsync_zero_first {r : Reader} {t : Nat} {rest : List UInt8} (ht : 0 < t)
    (hbytes : r.bytes = List.replicate t 0 ++ rest) (hlen : 4 ≤ r.bytes.length)
    (hready : 4 ≤ r.delivery.ready r.reads) (hclosed : r.closed = true) :
    ∃ data r', readAsync Except.ok r = some (.ok data, r') ∧ r'.isConnected = r.isConnected := by
  -- A length whose first byte is zero is not negative, and one that an array can have.
  have hlength : ∃ l : Nat, networkToHostOrder (toInt32 (fill 4 (r.bytes.take 4))) = l ∧
      l ≤ maxLength := by
    have hhead : ∃ b c d tail, r.bytes = 0 :: b :: c :: d :: tail := by
      rcases hr : r.bytes with _ | ⟨a, _ | ⟨b, _ | ⟨c, _ | ⟨d, tail⟩⟩⟩⟩
      · rw [hr] at hlen
        exact absurd hlen (by decide)
      · rw [hr] at hlen
        exact absurd hlen (by simp)
      · rw [hr] at hlen
        exact absurd hlen (by simp)
      · rw [hr] at hlen
        exact absurd hlen (by simp)
      · have ha : a = 0 := by
          have hfirst := congrArg List.head? hbytes
          rw [hr] at hfirst
          cases t with
          | zero => exact absurd ht (Nat.lt_irrefl 0)
          | succ t =>
              rw [List.replicate_succ, List.cons_append] at hfirst
              exact Option.some.inj hfirst
        rw [ha]
        exact ⟨b, c, d, tail, rfl⟩
    rcases hhead with ⟨b, c, d, tail, hhead⟩
    rw [hhead]
    refine ⟨_, length_zero_first b c d, ?_⟩
    have hb := b.toNat_lt
    have hc := c.toNat_lt
    have hd := d.toNat_lt
    unfold maxLength
    omega
  rcases hlength with ⟨l, hl, hmax⟩
  unfold readAsync
  rw [readLengthAsync_full hlen hready, hl]
  simp only
  by_cases hzero : l = 0
  · rw [if_pos (by omega)]
    exact ⟨_, _, rfl, rfl⟩
  · rw [if_neg (by omega), if_neg (by omega), if_neg (by omega), Int.toNat_natCast]
    rcases Reader.read_closed (r := { r with bytes := r.bytes.drop 4, reads := r.reads + 1 })
      hclosed l with ⟨p, hp, hconnected⟩
    rw [hp]
    exact ⟨_, _, rfl, hconnected⟩

/-- A cut within a message is not noticed. -/
theorem readAsync_cut {r : Reader} {p : Payload} {cut : Nat} (hcut : 4 ≤ cut)
    (hbytes : r.bytes = p.frame.take cut) (hready : 4 ≤ r.delivery.ready r.reads)
    (hclosed : r.closed = true) :
    ∃ data r', readAsync Except.ok r = some (.ok data, r') ∧ r'.isConnected = r.isConnected := by
  have hsplit : r.bytes = writeLengthAsync p.data.length ++ p.data.take (cut - 4) := by
    rw [hbytes]
    unfold Payload.frame
    rw [List.take_append, length_writeLengthAsync, List.take_of_length_le (by simpa using hcut)]
  rw [readAsync_body Except.ok p.length_pos p.le hsplit hready]
  rcases Reader.read_closed (r := { r with bytes := p.data.take (cut - 4), reads := r.reads + 1 })
    hclosed p.data.length with ⟨q, hq, hconnected⟩
  rw [hq]
  exact ⟨_, _, rfl, hconnected⟩

/-- From zeros that were left in the pipe a length is read that is too small
    for the message that comes next. -/
theorem not_onlyDelivers_zeros {r : Reader} {t : Nat} {rest : List UInt8} (ps : List Payload)
    (ht : 0 < t) (hbytes : r.bytes = List.replicate t 0 ++ (Payload.frames ps ++ rest))
    (hlen : 4 ≤ r.bytes.length) (hready : 4 ≤ r.delivery.ready r.reads)
    (hclosed : r.closed = true) (hconnected : r.isConnected = true) :
    ¬ OnlyDelivers Except.ok (ps.map Payload.data) r := by
  intro h
  rcases readAsync_zero_first ht hbytes hlen hready hclosed with ⟨data, r', hrun, hr'⟩
  have hnot := not_stops hrun (hr'.trans hconnected)
  cases ps with
  | nil => exact hnot h
  | cons p ps =>
      rcases h with hstops | ⟨r'', hdelivers, -⟩
      · exact hnot hstops
      · rw [Payload.frames_cons, List.append_assoc] at hbytes
        have hsmaller := readAsync_shifted p.length_pos p.lt ht hbytes hdelivers
        exact absurd hsmaller (Nat.lt_irrefl _)

/-- Otherwise something else is returned, if messages are their own bytes. -/
theorem stopsInLength_of_onlyDelivers {last : Payload} {cut : Nat}
    (hcut : cut < last.frame.length) (ps : List Payload) : ∀ {r : Reader},
      r.bytes = Payload.frames ps ++ last.frame.take cut → r.closed = true →
      r.isConnected = true → OnlyDelivers Except.ok (ps.map Payload.data) r →
      StopsInLength r.delivery cut r.reads ps := by
  have hlast : (last.frame.take cut).length = cut := by
    rw [List.length_take, Nat.min_eq_left (Nat.le_of_lt hcut)]
  induction ps with
  | nil =>
      intro r hbytes hclosed hconnected h
      change cut < 4 ∨ r.delivery.ready r.reads < 4
      by_contra hno
      rcases not_or.mp hno with ⟨hlong, hready⟩
      rcases readAsync_cut (Nat.le_of_not_lt hlong) hbytes (Nat.le_of_not_lt hready) hclosed with
        ⟨data, r', hrun, hr'⟩
      exact not_stops hrun (hr'.trans hconnected) h
  | cons p ps ih =>
      intro r hbytes hclosed hconnected h
      rw [Payload.frames_cons, List.append_assoc, List.append_assoc] at hbytes
      by_cases hready : r.delivery.ready r.reads < 4
      · exact Or.inl hready
      · have hready' := Nat.le_of_not_lt hready
        by_cases hwhole : p.data.length ≤ r.delivery.ready (r.reads + 1)
        · have hrun := readAsync_whole Except.ok hbytes hready' hwhole
          refine Or.inr (Or.inl ⟨hwhole, ?_⟩)
          rcases h with h | ⟨r', hrun', hrest⟩
          · exact absurd h (not_stops hrun hconnected)
          · rw [hrun] at hrun'
            rw [← (Prod.mk.inj (Option.some.inj hrun')).2] at hrest
            exact ih (r := { r with bytes := Payload.frames ps ++ last.frame.take cut
                                    reads := r.reads + 2 }) rfl hclosed hconnected hrest
        · have hlt := Nat.lt_of_not_le hwhole
          have hrun := readAsync_frame Except.ok hbytes hready' (Nat.le_of_lt hlt)
          refine Or.inr (Or.inr ⟨hlt, ?_⟩)
          rcases h with h | ⟨r', hrun', hrest⟩
          · exact absurd h (not_stops hrun hconnected)
          · rw [hrun] at hrun'
            have hpair := Prod.mk.inj (Option.some.inj hrun')
            have hzeros := (fill_take (Nat.le_of_lt hlt)).mp (Except.ok.inj hpair.1)
            refine ⟨hzeros, ?_⟩
            by_contra hno
            rcases not_or.mp hno with ⟨hnext, hlong⟩
            -- The zeros are still in the pipe, and a length is read from there.
            have hdrop : p.data.drop (r.delivery.ready (r.reads + 1))
                = List.replicate (p.data.length - r.delivery.ready (r.reads + 1)) 0 :=
              List.eq_replicate_iff.mpr ⟨List.length_drop, hzeros⟩
            have hbytes' : r'.bytes = List.replicate
                (p.data.length - r.delivery.ready (r.reads + 1)) 0 ++
                  (Payload.frames ps ++ last.frame.take cut) := by
              rw [← hpair.2, ← hdrop]
            have hlen : 4 ≤ r'.bytes.length := by
              rw [hbytes', List.length_append, List.length_append, List.length_replicate, hlast]
              omega
            have hreads : 4 ≤ r'.delivery.ready r'.reads := by
              rw [← hpair.2]
              exact Nat.le_of_not_lt hnext
            have hclosed' : r'.closed = true := by
              rw [← hpair.2]
              exact hclosed
            have hconnected' : r'.isConnected = true := by
              rw [← hpair.2]
              exact hconnected
            exact not_onlyDelivers_zeros ps (Nat.sub_pos_of_lt hlt) hbytes' hlen hreads hclosed'
              hconnected' hrest

/-- A frame that is cut off is not returned if and only if the calls end with
    a length that is not read whole. -/
theorem undelivered_iff (ps : List Payload) (last : Payload) (cut : Nat)
    (hcut : cut < last.frame.length) (d : Delivery) :
    Undelivered ps last cut d ↔ StopsInLength d cut 0 ps := by
  constructor
  · intro h
    have hms : (ps.map Payload.data).map raw.serialize = ps.map Payload.data := List.map_id _
    exact stopsInLength_of_onlyDelivers hcut ps
      (r := Reader.new d (Payload.frames ps ++ last.frame.take cut) true) rfl rfl rfl
      (h (List UInt8) raw (ps.map Payload.data) hms)
  · intro h M _ c ms hms
    refine onlyDelivers_of_stopsInLength c ms (last.frame.take cut)
      (r := Reader.new d (Payload.frames ps ++ last.frame.take cut) true) hms rfl rfl ?_
    rw [List.length_take, Nat.min_eq_left (Nat.le_of_lt hcut)]
    exact h

/-- A message of two bytes. -/
def twoBytes : Payload := ⟨[7, 8], by decide, by decide⟩

/-- As much as is asked for, up to nine bytes. -/
def ample : Delivery := ⟨fun _ => 9, fun _ => by decide⟩

/-- Cut within its length a frame is not returned. -/
theorem undelivered_cut_length : Undelivered [twoBytes] twoBytes 3 ample :=
  (undelivered_iff [twoBytes] twoBytes 3 (by decide) ample).mpr
    (Or.inr (Or.inl ⟨by decide, Or.inl (by decide)⟩))

/-- Cut after the first of its two bytes a message comes out with a zero for
    the second. -/
theorem cut_message_delivered :
    (readAsync Except.ok (Reader.new ample (twoBytes.frame.take 5) true)).map Prod.fst
      = some (.ok [7, 0]) ∧
    ¬ Undelivered [] twoBytes 5 ample := by
  refine ⟨rfl, fun h => ?_⟩
  have hms : ([] : List (List UInt8)).map raw.serialize =
      ([] : List Payload).map Payload.data := rfl
  have hstops : Stops (List UInt8) (Reader.new ample (twoBytes.frame.take 5) true) :=
    h (List UInt8) raw [] hms
  have hreturns := readAsync_cut (r := Reader.new ample (twoBytes.frame.take 5) true)
    (p := twoBytes) (by decide) rfl (by decide) rfl
  rcases hreturns with ⟨data, r', hrun, hconnected⟩
  exact not_stops hrun hconnected hstops

end PipeStreamWrapper

end BlogSample
