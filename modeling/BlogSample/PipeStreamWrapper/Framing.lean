import BlogSample.PipeStreamWrapper.Wrapper

/-!
# Which Deliveries Are Harmless

`ReadAsync` reads the length of a frame and the frame with one read each, and
only the read of the length is checked for how much it got. So messages come
out as they went in, for all that MessagePack may be, if and only if every
read gets all it asks for.

There is one exception. What a short read leaves out of the last message is
never looked at, and the buffer has zeros for it, so a tail of zeros may be
missing there. In any other message it may not: its bytes are still in the
pipe, and taken for a part of the next length they make a smaller one of it.

## Main definitions

* `Yields`: Calls return given messages.
* `Transparent`: Messages come out as they went in.
* `ReadsWhole`: Every read gets all it asks for.

## Theorems

* `yields_of_readsWhole`: Whole reads give the messages.
* `readAsync_shifted`: What is read after a short read.
* `readsWhole_of_yields`: Nothing else does.
* `transparent_iff`: Which deliveries are harmless.
-/

namespace BlogSample

namespace PipeStreamWrapper

open DotNet

/-- The calls return the messages, in their order. -/
def Yields {M : Type} [Inhabited M] (deserialize : List UInt8 → Except Exn M) :
    List M → Reader → Prop
  | [], _ => True
  | m :: ms, r => ∃ r', readAsync deserialize r = some (.ok m, r') ∧ Yields deserialize ms r'

/-- Whatever messages the bytes stand for, as many calls as there were
    messages written return these. -/
def Transparent (ps : List Payload) (d : Delivery) : Prop :=
  ∀ (M : Type) [Inhabited M] (c : MessagePack M) (ms : List M),
    ms.map c.serialize = ps.map Payload.data →
    Yields c.deserialize ms (Reader.new d (ms.foldl (writeAsync c.serialize) []) false)

/-- From the read with the given number on every read gets all it asks for,
    the length of a message or its bytes, but for zeros at the end of the last
    message. -/
def ReadsWhole (d : Delivery) : Nat → List Payload → Prop
  | _, [] => True
  | i, p :: ps =>
      4 ≤ d.ready i ∧
      (p.data.length ≤ d.ready (i + 1) ∧ ReadsWhole d (i + 2) ps ∨
        ps = [] ∧ ∀ b ∈ p.data.drop (d.ready (i + 1)), b = 0)

/-- Whole reads give the messages. -/
theorem yields_of_readsWhole {M : Type} [Inhabited M] (c : MessagePack M) (ms : List M) :
    ∀ {ps : List Payload} {r : Reader}, ms.map c.serialize = ps.map Payload.data →
      r.bytes = Payload.frames ps → ReadsWhole r.delivery r.reads ps →
      Yields c.deserialize ms r := by
  induction ms with
  | nil => exact fun _ _ _ => trivial
  | cons m ms ih =>
      intro ps r hms hbytes h
      cases ps with
      | nil => cases hms
      | cons p ps =>
          rw [List.map_cons, List.map_cons, List.cons.injEq] at hms
          rw [Payload.frames_cons] at hbytes
          rcases h with ⟨hready, hbody⟩
          have hgives : c.deserialize p.data = .ok m := by
            rw [← hms.1]
            exact c.deserialize_serialize m
          -- The body is read whole, and the next message begins where it ends.
          by_cases hwhole : p.data.length ≤ r.delivery.ready (r.reads + 1)
          · refine ⟨_, by rw [readAsync_whole c.deserialize hbytes hready hwhole, hgives], ?_⟩
            refine ih hms.2 rfl ?_
            rcases hbody with hbody | hbody
            · exact hbody.2
            · rw [hbody.1]
              exact trivial
          -- Only zeros are missing, and there are no more messages.
          · have hshort := Nat.le_of_lt (Nat.lt_of_not_le hwhole)
            rcases hbody with hbody | hbody
            · exact absurd hbody.1 hwhole
            · have hfill := (fill_take hshort).mpr hbody.2
              refine ⟨_, by rw [readAsync_frame c.deserialize hbytes hready hshort, hfill, hgives],
                ?_⟩
              rw [hbody.1] at hms
              rw [List.map_eq_nil_iff.mp hms.2]
              exact trivial

/-- Zeros that a short read has left in the pipe make the next message
    shorter, if there is one at all. -/
theorem readAsync_shifted {r r' : Reader} {n t : Nat} {rest data : List UInt8} (hpos : 0 < n)
    (hn : n < 2147483648) (ht : 0 < t)
    (hbytes : r.bytes = List.replicate t 0 ++ (writeLengthAsync n ++ rest))
    (h : readAsync Except.ok r = some (.ok data, r')) : data.length < n := by
  have hlen : 4 ≤ r.bytes.length := by
    rw [hbytes]
    simp only [List.length_append, length_writeLengthAsync]
    omega
  have hne : r.bytes ≠ [] := by
    intro hnil
    rw [hnil] at hlen
    exact absurd hlen (by decide)
  -- The four bytes begin with a zero too early, so the length is read 256 times
  -- too small or smaller.
  by_cases hready : 4 ≤ r.delivery.ready r.reads
  · rcases shifted_length hpos hn ht rest with ⟨l, hl, hlt⟩
    unfold readAsync at h
    rw [readLengthAsync_full hlen hready, hbytes, hl] at h
    simp only at h
    by_cases hzero : l = 0
    · rw [if_pos (by omega)] at h
      have hdata : default = data := Except.ok.inj (Prod.mk.inj (Option.some.inj h)).1
      rw [← hdata]
      exact hpos
    -- The length is smaller than one that an array can have.
    · have hmax : ¬ (maxLength : Int) < l := by
        intro hgt
        rw [if_neg (by omega), if_neg (by omega), if_pos hgt] at h
        cases (Prod.mk.inj (Option.some.inj h)).1
      rw [if_neg (by omega), if_neg (by omega), if_neg hmax, Int.toNat_natCast] at h
      revert h
      cases hread : Reader.read l _ with
      | none =>
          intro h
          cases h
      | some p =>
          intro h
          have hdata : fill l p.1 = data := Except.ok.inj (Prod.mk.inj (Option.some.inj h)).1
          rw [← hdata, length_fill (Reader.length_read hread)]
          exact hlt
  -- With fewer than four bytes, the call throws.
  · rcases readAsync_header_short Except.ok hne (Or.inr (Nat.lt_of_not_le hready)) with ⟨r'', hr''⟩
    rw [hr''] at h
    cases (Prod.mk.inj (Option.some.inj h)).1

/-- Messages that are their own bytes. -/
def raw : MessagePack (List UInt8) where
  serialize := id
  deserialize := .ok
  deserialize_serialize := fun _ => rfl

/-- Only whole reads give messages that are their own bytes. -/
theorem readsWhole_of_yields (ps : List Payload) : ∀ {r : Reader},
    r.bytes = Payload.frames ps → Yields Except.ok (ps.map Payload.data) r →
    ReadsWhole r.delivery r.reads ps := by
  induction ps with
  | nil => exact fun _ _ => trivial
  | cons p ps ih =>
      intro r hbytes h
      rw [Payload.frames_cons] at hbytes
      rcases h with ⟨r', hrun, hrest⟩
      have hne : r.bytes ≠ [] := by
        rw [hbytes]
        exact List.append_ne_nil_of_left_ne_nil (List.cons_ne_nil _ _) _
      have hready : 4 ≤ r.delivery.ready r.reads := by
        by_contra hshort
        rcases readAsync_header_short Except.ok hne (Or.inr (Nat.lt_of_not_le hshort)) with
          ⟨r'', hthrow⟩
        rw [hthrow] at hrun
        cases (Prod.mk.inj (Option.some.inj hrun)).1
      refine ⟨hready, ?_⟩
      by_cases hwhole : p.data.length ≤ r.delivery.ready (r.reads + 1)
      · refine Or.inl ⟨hwhole, ?_⟩
        rw [readAsync_whole Except.ok hbytes hready hwhole] at hrun
        rw [← (Prod.mk.inj (Option.some.inj hrun)).2] at hrest
        exact ih (r := { r with bytes := Payload.frames ps, reads := r.reads + 2 }) rfl hrest
      · have hlt := Nat.lt_of_not_le hwhole
        rw [readAsync_frame Except.ok hbytes hready (Nat.le_of_lt hlt)] at hrun
        have hpair := Prod.mk.inj (Option.some.inj hrun)
        have hzeros := (fill_take (Nat.le_of_lt hlt)).mp (Except.ok.inj hpair.1)
        refine Or.inr ⟨?_, hzeros⟩
        cases ps with
        | nil => rfl
        | cons q ps =>
            -- The zeros are read before the length of the next message.
            rcases hrest with ⟨r'', hrun', -⟩
            have hdrop : p.data.drop (r.delivery.ready (r.reads + 1))
                = List.replicate (p.data.length - r.delivery.ready (r.reads + 1)) 0 :=
              List.eq_replicate_iff.mpr ⟨List.length_drop, hzeros⟩
            have hbytes' : r'.bytes = List.replicate
                (p.data.length - r.delivery.ready (r.reads + 1)) 0 ++
                  (writeLengthAsync q.data.length ++ (q.data ++ Payload.frames ps)) := by
              rw [← hpair.2, ← hdrop, ← Payload.frames_cons]
            have hsmaller :=
              readAsync_shifted q.length_pos q.lt (Nat.sub_pos_of_lt hlt) hbytes' hrun'
            exact absurd hsmaller (Nat.lt_irrefl _)

/-- Messages come out as they went in if and only if every read gets all it
    asks for, but for zeros at the end of the last message. -/
theorem transparent_iff (ps : List Payload) (d : Delivery) :
    Transparent ps d ↔ ReadsWhole d 0 ps := by
  constructor
  · intro h
    have hms : (ps.map Payload.data).map raw.serialize = ps.map Payload.data := List.map_id _
    have hyields := h (List UInt8) raw (ps.map Payload.data) hms
    rw [foldl_writeAsync raw.serialize _ ps [] hms, List.nil_append] at hyields
    exact readsWhole_of_yields ps (r := Reader.new d (Payload.frames ps) false) rfl hyields
  · intro h M _ c ms hms
    rw [foldl_writeAsync c.serialize ms ps [] hms, List.nil_append]
    exact yields_of_readsWhole c ms (r := Reader.new d (Payload.frames ps) false) hms rfl h

/-- One byte at a time. -/
def bytewise : Delivery := ⟨fun _ => 1, fun _ => Nat.le_refl 1⟩

/-- A message of one byte, delivered byte by byte. -/
theorem bytewise_not_transparent :
    (readAsync Except.ok (Reader.new bytewise (writeAsync id [] [7]) false)).map Prod.fst
      = some (.error .io) ∧
    ¬ Transparent [⟨[7], by decide, by decide⟩] bytewise := by
  refine ⟨rfl, ?_⟩
  rw [transparent_iff]
  intro h
  exact absurd h.1 (by decide)

end PipeStreamWrapper

end BlogSample
