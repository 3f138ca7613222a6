import BlogSample.PipeStreamWrapper.Wrapper
import BlogSample.Theory.Transition

/-!
# A Host and Its Worker

Two loops over a pipe in each direction. The host of `ProcessorLab` writes an
object, reads what comes back and counts on. `ExampleWorker` reads an object,
adds to it and writes it back, and looks between two of them whether it has
been told to switch; then it leaves, and its pipes are closed.

Both go through `PipeStreamWrapper`, which writes the length of a message and
its bytes by themselves, so either may be read before the other is written.
Each has a type of its own that it reads and writes: a `ValueModel` the host,
and an `int` the worker. Nothing but the bytes tells whether one can read what
the other has written, and an exception ends the one that cannot.

What is written is there as a whole when it is read, and a read waits if
nothing is; then the two keep step whatever the schedule. The replies come in
order up to the first object that cannot be read, or until the worker is told
to switch. The host is left with a request that nobody serves, for which it
gets a default value in place of a reply.

## Main definitions

* `Host`, `Worker`, `Session`: The two loops and the pipes.
* `hostStep`, `workerStep`: What they do.
* `session`: Their runs.
* `request`, `reply`: What the worker reads of an object, and the host of the
  answer to it.
* `Lockstep`: The invariant.

## Theorems

* `lockstep_host`, `lockstep_worker`: The invariant is kept.
* `session_inOrder`: What the host has received.
-/

namespace BlogSample

namespace ContextSwitchExample

open DotNet PipeStreamWrapper Transition

/-- Where the host is: about to write the length of an object or its bytes, to
    read a length or so many bytes; or an exception has ended it. -/
inductive Host
  | writingLength
  | writingData
  | readingLength
  | readingData (len : Nat)
  | ended
  deriving DecidableEq

/-- Where the worker is: about to look whether it is to switch, to read a
    length or so many bytes, to write the length of a reply or its bytes; it
    has left, or an exception has ended it. -/
inductive Worker (W : Type)
  | checking
  | readingLength
  | readingData (len : Nat)
  | writingLength (answer : W)
  | writingData (answer : W)
  | left
  | failed

/-- The host with its counter and what it has received, the worker with how
    many requests it has read, the bytes in the two pipes, and whether the
    worker has been told to switch. -/
structure Session (H W : Type) where
  host : Host
  i : Nat
  received : List H
  worker : Worker W
  served : Nat
  toWorker : List UInt8
  toHost : List UInt8
  told : Bool

/-- A pipe in which all that has been written is there to be read. -/
def pipe (bytes : List UInt8) (closed : Bool) : Reader :=
  .new ⟨fun _ => 2147483647, fun _ => by decide⟩ bytes closed

section

variable {H W : Type} [Inhabited H] [Inhabited W]

/-- The pipes are closed when the worker is gone. -/
def Worker.isGone : Worker W → Bool
  | .left => true
  | .failed => true
  | _ => false

/-- The host has got a message, and counts on. -/
def Session.got (s : Session H W) (res : H) (toHost : List UInt8) : Session H W :=
  { s with
    host := .writingLength
    i := s.i + 1
    received := s.received ++ [res]
    toHost := toHost }

/-- A step of the host. Writing to a closed pipe throws. -/
def hostStep (c : MessagePack H) (obj : Nat → H) (s : Session H W) : Option (Session H W) :=
  match s.host with
  | .writingLength =>
      -- Writing to a pipe that nobody reads throws.
      if s.worker.isGone then some { s with host := .ended }
      else
        let len := writeLengthAsync (c.serialize (obj s.i)).length
        some { s with host := .writingData, toWorker := s.toWorker ++ len }
  | .writingData =>
      if s.worker.isGone then some { s with host := .ended }
      else
        some { s with host := .readingLength, toWorker := s.toWorker ++ c.serialize (obj s.i) }
  | .readingLength =>
      match readLengthAsync (pipe s.toHost s.worker.isGone) with
      | none => none
      | some (.error _, r) => some { s with host := .ended, toHost := r.bytes }
      | some (.ok len, r) =>
          -- `ReadAsync` returns null for a length of 0.
          if len = 0 then some (s.got default r.bytes)
          else if len < 0 ∨ (maxLength : Int) < len then
            some { s with host := .ended, toHost := r.bytes }
          else some { s with host := .readingData len.toNat, toHost := r.bytes }
  | .readingData len =>
      match (pipe s.toHost s.worker.isGone).read len with
      | none => none
      | some (bytes, r) =>
          match c.deserialize (fill len bytes) with
          -- What was read is gone, though nothing comes of it.
          | .error _ => some { s with host := .ended, toHost := r.bytes }
          | .ok res => some (s.got res r.bytes)
  | .ended => none

/-- The worker has got a message, and makes its answer of it. -/
def Session.serve (s : Session H W) (answer : W → W) (res : W) (toWorker : List UInt8) :
    Session H W :=
  { s with worker := .writingLength (answer res), served := s.served + 1, toWorker := toWorker }

/-- A step of the worker. -/
def workerStep (d : MessagePack W) (answer : W → W) (s : Session H W) : Option (Session H W) :=
  match s.worker with
  -- `while (!task.IsCompleted)`.
  | .checking => some { s with worker := if s.told = true then .left else .readingLength }
  | .readingLength =>
      match readLengthAsync (pipe s.toWorker (s.host == .ended)) with
      | none => none
      | some (.error _, r) => some { s with worker := .failed, toWorker := r.bytes }
      | some (.ok len, r) =>
          -- `ReadAsync` returns null for a length of 0.
          if len = 0 then some (s.serve answer default r.bytes)
          else if len < 0 ∨ (maxLength : Int) < len then
            some { s with worker := .failed, toWorker := r.bytes }
          else some { s with worker := .readingData len.toNat, toWorker := r.bytes }
  | .readingData len =>
      match (pipe s.toWorker (s.host == .ended)).read len with
      | none => none
      | some (bytes, r) =>
          match d.deserialize (fill len bytes) with
          | .error _ => some { s with worker := .failed, toWorker := r.bytes }
          | .ok res => some (s.serve answer res r.bytes)
  | .writingLength answer =>
      -- The pipe is broken.
      if s.host = .ended then some { s with worker := .failed }
      else
        let len := writeLengthAsync (d.serialize answer).length
        some { s with worker := .writingData answer, toHost := s.toHost ++ len }
  | .writingData answer =>
      if s.host = .ended then some { s with worker := .failed }
      else some { s with worker := .checking, toHost := s.toHost ++ d.serialize answer }
  | .left => none
  | .failed => none

/-- The host or the worker takes a step, or the worker is told to switch. -/
inductive Action
  | host
  | worker
  | tell

/-- One step. -/
def step (c : MessagePack H) (d : MessagePack W) (obj : Nat → H) (answer : W → W)
    (s : Session H W) : Action → Option (Session H W)
  | .host => hostStep c obj s
  | .worker => workerStep d answer s
  | .tell => some { s with told := true }

/-- The pipes are connected, and nothing has been written. -/
def start : Session H W :=
  ⟨.writingLength, 0, [], .checking, 0, [], [], false⟩

/-- The runs of the host and the worker. -/
def session (c : MessagePack H) (d : MessagePack W) (obj : Nat → H) (answer : W → W) :
    System (Session H W) Action :=
  System.ofFn (fun s => s = start) (step c d obj answer)

/-- The messages have bytes, and not too many for an array. -/
def Sendable {M : Type} (c : MessagePack M) : Prop :=
  ∀ m, c.serialize m ≠ [] ∧ (c.serialize m).length ≤ maxLength

/-- What the worker reads of an object. -/
def request (c : MessagePack H) (d : MessagePack W) (obj : Nat → H) (i : Nat) : Except Exn W :=
  d.deserialize (c.serialize (obj i))

/-- What the host reads of the answer to an object. -/
def reply (c : MessagePack H) (d : MessagePack W) (obj : Nat → H) (answer : W → W) (i : Nat) :
    Except Exn H := do
  let v ← request c d obj i
  c.deserialize (d.serialize (answer v))

/-! ### Reads -/

section Reads

variable {M : Type} {c : MessagePack M} (hc : Sendable c)

include hc

theorem readLengthAsync_pipe {m : M} (rest : List UInt8) (closed : Bool) :
    ∃ r, readLengthAsync (pipe (writeLengthAsync (c.serialize m).length ++ rest) closed) =
      some (.ok ((c.serialize m).length : Nat), r) ∧ r.bytes = rest :=
  ⟨_, readLengthAsync_whole (Nat.lt_of_le_of_lt (hc m).2 (by decide)) rfl
    (by change 4 ≤ 2147483647; decide), rfl⟩

theorem read_pipe {m : M} (closed : Bool) :
    ∃ r, (pipe (c.serialize m) closed).read (c.serialize m).length = some (c.serialize m, r) ∧
      r.bytes = [] :=
  ⟨_, Reader.read_whole (List.append_nil _).symm (hc m).1
    (Nat.le_trans (hc m).2 (by change maxLength ≤ 2147483647; decide)), rfl⟩

end Reads

/-! ### Keeping step -/

/-- What has been received is the replies to the first objects. -/
def Replied (c : MessagePack H) (d : MessagePack W) (obj : Nat → H) (answer : W → W) (n : Nat)
    (received : List H) : Prop :=
  (List.range n).map (reply c d obj answer) = received.map .ok

/-- The worker is between two requests, or has left, as it has been told to. -/
inductive Idle (told : Bool) : Worker W → Prop
  | checking : Idle told .checking
  | readingLength : Idle told .readingLength
  | left : told = true → Idle told .left

/-- The worker has left, or was ended by a request. -/
inductive Gone (req : Except Exn W) (told : Bool) : Worker W → Prop
  | left : told = true → Gone req told .left
  | failed (e : Exn) : req = .error e → Gone req told .failed

/-- Where the worker may come to when the host is gone: it reads a default
    value in place of a request, and cannot write the answer. -/
inductive Alone (told : Bool) : Worker W → Prop
  | idle (w : Worker W) : Idle told w → Alone told w
  | writingLength (v : W) : Alone told (.writingLength v)
  | failed : Alone told .failed

/-- The states that the host and the worker come to: what each is about to do,
    and what is in the pipes. -/
inductive Lockstep (c : MessagePack H) (d : MessagePack W) (obj : Nat → H) (answer : W → W) :
    Session H W → Prop
  | asking (i : Nat) (l : List H) (w : Worker W) (told : Bool) :
      Replied c d obj answer i l → Idle told w →
      Lockstep c d obj answer ⟨.writingLength, i, l, w, i, [], [], told⟩
  | asked (i : Nat) (l : List H) (w : Worker W) (told : Bool) :
      Replied c d obj answer i l → Idle told w →
      Lockstep c d obj answer ⟨.writingData, i, l, w, i,
        writeLengthAsync (c.serialize (obj i)).length, [], told⟩
  | heard (i : Nat) (l : List H) (told : Bool) : Replied c d obj answer i l →
      Lockstep c d obj answer ⟨.writingData, i, l, .readingData (c.serialize (obj i)).length, i,
        [], [], told⟩
  | sent (i : Nat) (l : List H) (w : Worker W) (told : Bool) :
      Replied c d obj answer i l → Idle told w →
      Lockstep c d obj answer ⟨.readingLength, i, l, w, i,
        writeLengthAsync (c.serialize (obj i)).length ++ c.serialize (obj i), [], told⟩
  | sentHeard (i : Nat) (l : List H) (told : Bool) : Replied c d obj answer i l →
      Lockstep c d obj answer ⟨.readingLength, i, l, .readingData (c.serialize (obj i)).length, i,
        c.serialize (obj i), [], told⟩
  | unread (i : Nat) (l : List H) (e : Exn) (told : Bool) : Replied c d obj answer i l →
      request c d obj i = .error e →
      Lockstep c d obj answer ⟨.readingLength, i, l, .failed, i, [], [], told⟩
  | working (i : Nat) (l : List H) (v : W) (told : Bool) : Replied c d obj answer i l →
      request c d obj i = .ok v →
      Lockstep c d obj answer ⟨.readingLength, i, l, .writingLength (answer v), i + 1, [], [],
        told⟩
  | replying (i : Nat) (l : List H) (v : W) (told : Bool) : Replied c d obj answer i l →
      request c d obj i = .ok v →
      Lockstep c d obj answer ⟨.readingLength, i, l, .writingData (answer v), i + 1, [],
        writeLengthAsync (d.serialize (answer v)).length, told⟩
  | replyingHeard (i : Nat) (l : List H) (v : W) (told : Bool) : Replied c d obj answer i l →
      request c d obj i = .ok v →
      Lockstep c d obj answer ⟨.readingData (d.serialize (answer v)).length, i, l,
        .writingData (answer v), i + 1, [], [], told⟩
  | replied (i : Nat) (l : List H) (v : W) (w : Worker W) (told : Bool) :
      Replied c d obj answer i l → request c d obj i = .ok v → Idle told w →
      Lockstep c d obj answer ⟨.readingLength, i, l, w, i + 1, [],
        writeLengthAsync (d.serialize (answer v)).length ++ d.serialize (answer v), told⟩
  | repliedHeard (i : Nat) (l : List H) (v : W) (w : Worker W) (told : Bool) :
      Replied c d obj answer i l → request c d obj i = .ok v → Idle told w →
      Lockstep c d obj answer ⟨.readingData (d.serialize (answer v)).length, i, l, w, i + 1, [],
        d.serialize (answer v), told⟩
  -- The worker has left a request behind, or was ended by it.
  | lost (i : Nat) (l : List H) (w : Worker W) (toWorker : List UInt8) (told : Bool) :
      Replied c d obj answer i l → Gone (request c d obj i) told w →
      Lockstep c d obj answer ⟨.writingLength, i + 1, l ++ [default], w, i, toWorker, [], told⟩
  | stopped (i j : Nat) (l received : List H) (w : Worker W) (toWorker : List UInt8)
      (told : Bool) : Replied c d obj answer i l → received = l ∨ received = l ++ [default] →
      Gone (request c d obj i) told w →
      Lockstep c d obj answer ⟨.ended, j, received, w, i, toWorker, [], told⟩
  -- The host was ended by a reply.
  | misread (i : Nat) (l : List H) (e : Exn) (w : Worker W) (served : Nat) (told : Bool) :
      Replied c d obj answer i l → reply c d obj answer i = .error e → Alone told w →
      Lockstep c d obj answer ⟨.ended, i, l, w, served, [], [], told⟩

section Steps

variable {c : MessagePack H} {d : MessagePack W} {obj : Nat → H} {answer : W → W}
variable {s t : Session H W}

omit [Inhabited H] [Inhabited W] in
/-- One more reply is received. -/
theorem Replied.snoc {n : Nat} {l : List H} {h : H} (hl : Replied c d obj answer n l)
    (hh : reply c d obj answer n = .ok h) : Replied c d obj answer (n + 1) (l ++ [h]) := by
  unfold Replied at hl ⊢
  rw [List.range_succ, List.map_append, List.map_append, hl, List.map_singleton, hh]
  rfl

omit [Inhabited H] [Inhabited W] in
/-- The reply to an object that the worker can read. -/
theorem reply_of_request (answer : W → W) {i : Nat} {v : W} (hv : request c d obj i = .ok v) :
    reply c d obj answer i = c.deserialize (d.serialize (answer v)) := by
  unfold reply
  rw [hv]
  rfl

omit [Inhabited W] in
theorem Idle.gone {told : Bool} {w : Worker W} {req : Except Exn W} (h : Idle told w)
    (hgone : w.isGone = true) : Gone req told w := by
  cases h with
  | checking => cases hgone
  | readingLength => cases hgone
  | left htold => exact .left htold

omit [Inhabited W] in
theorem Gone.isGone {told : Bool} {w : Worker W} {req : Except Exn W} (h : Gone req told w) :
    w.isGone = true := by
  cases h with
  | left => rfl
  | failed => rfl

omit [Inhabited W] in
/-- The length of a message that is there is read. -/
theorem hostStep_readingLength (hd : Sendable d) {m : W} (rest : List UInt8)
    (hhost : s.host = .readingLength)
    (hbytes : s.toHost = writeLengthAsync (d.serialize m).length ++ rest) :
    hostStep c obj s =
      some { s with host := .readingData (d.serialize m).length, toHost := rest } := by
  rcases readLengthAsync_pipe (m := m) hd rest s.worker.isGone with ⟨r, hr, hrest⟩
  have hpos := List.length_pos_iff.mpr (hd m).1
  have hmax := (hd m).2
  unfold hostStep
  simp only [hhost]
  rw [hbytes, hr]
  simp only
  rw [if_neg (by omega), if_neg (by omega), hrest, Int.toNat_natCast]

omit [Inhabited W] in
/-- Its bytes are read, and may be no message to the host. -/
theorem hostStep_readingData (hd : Sendable d) {m : W}
    (hhost : s.host = .readingData (d.serialize m).length) (hbytes : s.toHost = d.serialize m) :
    hostStep c obj s =
      match c.deserialize (d.serialize m) with
      | .error _ => some { s with host := .ended, toHost := [] }
      | .ok res => some (s.got res []) := by
  rcases read_pipe (m := m) hd s.worker.isGone with ⟨r, hr, hrest⟩
  unfold hostStep
  simp only [hhost]
  rw [hbytes, hr]
  simp only
  rw [fill_length, hrest]

omit [Inhabited H] in
theorem workerStep_readingLength (hc : Sendable c) {m : H} (rest : List UInt8)
    (hworker : s.worker = .readingLength)
    (hbytes : s.toWorker = writeLengthAsync (c.serialize m).length ++ rest) :
    workerStep d answer s =
      some { s with worker := .readingData (c.serialize m).length, toWorker := rest } := by
  rcases readLengthAsync_pipe (m := m) hc rest (s.host == .ended) with ⟨r, hr, hrest⟩
  have hpos := List.length_pos_iff.mpr (hc m).1
  have hmax := (hc m).2
  unfold workerStep
  simp only [hworker]
  rw [hbytes, hr]
  simp only
  rw [if_neg (by omega), if_neg (by omega), hrest, Int.toNat_natCast]

omit [Inhabited H] in
theorem workerStep_readingData (hc : Sendable c) {m : H}
    (hworker : s.worker = .readingData (c.serialize m).length)
    (hbytes : s.toWorker = c.serialize m) :
    workerStep d answer s =
      match d.deserialize (c.serialize m) with
      | .error _ => some { s with worker := .failed, toWorker := [] }
      | .ok res => some (s.serve answer res []) := by
  rcases read_pipe (m := m) hc (s.host == .ended) with ⟨r, hr, hrest⟩
  unfold workerStep
  simp only [hworker]
  rw [hbytes, hr]
  simp only
  rw [fill_length, hrest]

omit [Inhabited W] in
theorem lockstep_host (hd : Sendable d) (h : Lockstep c d obj answer s)
    (hstep : hostStep c obj s = some t) : Lockstep c d obj answer t := by
  cases h with
  | asking i l w told hl hw =>
      cases hgone : w.isGone with
      | true =>
          simp only [hostStep, hgone, if_true, Option.some.injEq] at hstep
          subst hstep
          exact .stopped i i l l w [] told hl (.inl rfl) (hw.gone hgone)
      | false =>
          simp only [hostStep, hgone, Bool.false_eq_true, if_false, Option.some.injEq] at hstep
          subst hstep
          exact .asked i l w told hl hw
  | asked i l w told hl hw =>
      cases hgone : w.isGone with
      | true =>
          simp only [hostStep, hgone, if_true, Option.some.injEq] at hstep
          subst hstep
          exact .stopped i i l l w _ told hl (.inl rfl) (hw.gone hgone)
      | false =>
          simp only [hostStep, hgone, Bool.false_eq_true, if_false, Option.some.injEq] at hstep
          subst hstep
          exact .sent i l w told hl hw
  | heard i l told hl =>
      cases hstep
      exact .sentHeard i l told hl
  | sent i l w told hl hw =>
      -- Nothing has come back: the host waits, or the worker has left.
      cases hgone : w.isGone with
      | true =>
          simp only [hostStep, hgone] at hstep
          cases hstep
          exact .lost i l w _ told hl (hw.gone hgone)
      | false =>
          simp only [hostStep, hgone] at hstep
          cases hstep
  | sentHeard i l told hl => cases hstep
  | unread i l e told hl he =>
      cases hstep
      exact .lost i l .failed [] told hl (.failed e he)
  | working i l v told hl hv => cases hstep
  | replying i l v told hl hv =>
      rw [hostStep_readingLength hd [] rfl (List.append_nil _).symm] at hstep
      cases hstep
      exact .replyingHeard i l v told hl hv
  | replyingHeard i l v told hl hv => cases hstep
  | replied i l v w told hl hv hw =>
      rw [hostStep_readingLength hd _ rfl rfl] at hstep
      cases hstep
      exact .repliedHeard i l v w told hl hv hw
  | repliedHeard i l v w told hl hv hw =>
      have hreply := reply_of_request answer hv
      rw [hostStep_readingData hd rfl rfl] at hstep
      cases hres : c.deserialize (d.serialize (answer v)) with
      | error e =>
          rw [hres] at hstep hreply
          cases hstep
          exact .misread i l e w (i + 1) told hl hreply (.idle w hw)
      | ok res =>
          rw [hres] at hstep hreply
          cases hstep
          exact .asking (i + 1) _ w told (hl.snoc hreply) hw
  | lost i l w toWorker told hl hw =>
      simp only [hostStep, hw.isGone, if_true, Option.some.injEq] at hstep
      subst hstep
      exact .stopped i (i + 1) l _ w toWorker told hl (.inr rfl) hw
  | stopped i j l received w toWorker told hl hr hw => cases hstep
  | misread i l e w served told hl he hw => cases hstep

omit [Inhabited W] in
/-- The worker looks whether it is to switch. -/
theorem idle_check (told : Bool) :
    Idle told (if told = true then .left else .readingLength : Worker W) := by
  cases told with
  | true => exact .left rfl
  | false => exact .readingLength

theorem lockstep_worker (hc : Sendable c) (h : Lockstep c d obj answer s)
    (hstep : workerStep d answer s = some t) : Lockstep c d obj answer t := by
  cases h with
  | asking i l w told hl hw =>
      cases hw with
      | checking =>
          cases hstep
          exact .asking i l _ told hl (idle_check told)
      | readingLength => cases hstep
      | left htold => cases hstep
  | asked i l w told hl hw =>
      cases hw with
      | checking =>
          cases hstep
          exact .asked i l _ told hl (idle_check told)
      | readingLength =>
          rw [workerStep_readingLength hc [] rfl (List.append_nil _).symm] at hstep
          cases hstep
          exact .heard i l told hl
      | left htold => cases hstep
  | heard i l told hl => cases hstep
  | sent i l w told hl hw =>
      cases hw with
      | checking =>
          cases hstep
          exact .sent i l _ told hl (idle_check told)
      | readingLength =>
          rw [workerStep_readingLength hc _ rfl rfl] at hstep
          cases hstep
          exact .sentHeard i l told hl
      | left htold => cases hstep
  | sentHeard i l told hl =>
      rw [workerStep_readingData hc rfl rfl] at hstep
      cases hreq : d.deserialize (c.serialize (obj i)) with
      | error e =>
          rw [hreq] at hstep
          cases hstep
          exact .unread i l e told hl hreq
      | ok v =>
          rw [hreq] at hstep
          cases hstep
          exact .working i l v told hl hreq
  | unread i l e told hl he => cases hstep
  | working i l v told hl hv =>
      cases hstep
      exact .replying i l v told hl hv
  | replying i l v told hl hv =>
      cases hstep
      exact .replied i l v .checking told hl hv .checking
  | replyingHeard i l v told hl hv =>
      cases hstep
      exact .repliedHeard i l v .checking told hl hv .checking
  | replied i l v w told hl hv hw =>
      cases hw with
      | checking =>
          cases hstep
          exact .replied i l v _ told hl hv (idle_check told)
      | readingLength => cases hstep
      | left htold => cases hstep
  | repliedHeard i l v w told hl hv hw =>
      cases hw with
      | checking =>
          cases hstep
          exact .repliedHeard i l v _ told hl hv (idle_check told)
      | readingLength => cases hstep
      | left htold => cases hstep
  | lost i l w toWorker told hl hw => cases hw <;> cases hstep
  | stopped i j l received w toWorker told hl hr hw => cases hw <;> cases hstep
  | misread i l e w served told hl he hw =>
      cases hw with
      | idle _ hidle =>
          cases hidle with
          | checking =>
              cases hstep
              exact .misread i l e _ served told hl he (.idle _ (idle_check told))
          | readingLength =>
              -- At the end of the pipe there is a length of zero.
              cases hstep
              exact .misread i l e _ (served + 1) told hl he (.writingLength (answer default))
          | left htold => cases hstep
      | writingLength v =>
          cases hstep
          exact .misread i l e .failed served told hl he .failed
      | failed => cases hstep

omit [Inhabited W] in
theorem Idle.tell {told : Bool} {w : Worker W} (h : Idle told w) : Idle true w := by
  cases h with
  | checking => exact .checking
  | readingLength => exact .readingLength
  | left htold => exact .left rfl

omit [Inhabited W] in
theorem Gone.tell {told : Bool} {w : Worker W} {req : Except Exn W} (h : Gone req told w) :
    Gone req true w := by
  cases h with
  | left htold => exact .left rfl
  | failed e he => exact .failed e he

omit [Inhabited W] in
theorem Alone.tell {told : Bool} {w : Worker W} (h : Alone told w) : Alone true w := by
  cases h with
  | idle _ hidle => exact .idle w hidle.tell
  | writingLength v => exact .writingLength v
  | failed => exact .failed

omit [Inhabited W] in
theorem lockstep_tell (h : Lockstep c d obj answer s) :
    Lockstep c d obj answer { s with told := true } := by
  cases h with
  | asking i l w told hl hw => exact .asking i l w true hl hw.tell
  | asked i l w told hl hw => exact .asked i l w true hl hw.tell
  | heard i l told hl => exact .heard i l true hl
  | sent i l w told hl hw => exact .sent i l w true hl hw.tell
  | sentHeard i l told hl => exact .sentHeard i l true hl
  | unread i l e told hl he => exact .unread i l e true hl he
  | working i l v told hl hv => exact .working i l v true hl hv
  | replying i l v told hl hv => exact .replying i l v true hl hv
  | replyingHeard i l v told hl hv => exact .replyingHeard i l v true hl hv
  | replied i l v w told hl hv hw => exact .replied i l v w true hl hv hw.tell
  | repliedHeard i l v w told hl hv hw => exact .repliedHeard i l v w true hl hv hw.tell
  | lost i l w toWorker told hl hw => exact .lost i l w toWorker true hl hw.tell
  | stopped i j l received w toWorker told hl hr hw =>
      exact .stopped i j l received w toWorker true hl hr hw.tell
  | misread i l e w served told hl he hw => exact .misread i l e w served true hl he hw.tell

theorem reachable_lockstep (hc : Sendable c) (hd : Sendable d)
    (h : (session c d obj answer).Reachable s) : Lockstep c d obj answer s := by
  refine h.invariant (Lockstep c d obj answer) (fun s (hs : s = start) => ?_) ?_
  · rw [hs]
    exact .asking 0 [] .checking false rfl .checking
  · intro s a t hs (hst : step c d obj answer s a = some t)
    cases a with
    | host => exact lockstep_host hd hs hst
    | worker => exact lockstep_worker hc hs hst
    | tell =>
        cases hst
        exact lockstep_tell hs

/-- Until the host has ended, it or the worker has a step. -/
theorem Lockstep.progress (hc : Sendable c) (hd : Sendable d) (h : Lockstep c d obj answer s)
    (hnot : s.host ≠ .ended) :
    (∃ t, hostStep c obj s = some t) ∨ ∃ t, workerStep d answer s = some t := by
  cases h with
  | asking i l w told hl hw =>
      left
      -- The host writes, whether or not the worker still reads.
      cases hgone : w.isGone with
      | true => exact ⟨_, by simp only [hostStep, hgone, if_true]; rfl⟩
      | false => exact ⟨_, by simp only [hostStep, hgone, Bool.false_eq_true, if_false]; rfl⟩
  | asked i l w told hl hw =>
      left
      cases hgone : w.isGone with
      | true => exact ⟨_, by simp only [hostStep, hgone, if_true]; rfl⟩
      | false => exact ⟨_, by simp only [hostStep, hgone, Bool.false_eq_true, if_false]; rfl⟩
  | heard i l told hl => exact .inl ⟨_, rfl⟩
  | sent i l w told hl hw =>
      -- The worker reads the frame, unless it has left before it was sent.
      cases hw with
      | checking => exact .inr ⟨_, rfl⟩
      | readingLength => exact .inr ⟨_, workerStep_readingLength hc _ rfl rfl⟩
      | left htold => exact .inl ⟨_, rfl⟩
  | sentHeard i l told hl =>
      right
      rw [workerStep_readingData hc rfl rfl]
      cases d.deserialize (c.serialize (obj i)) with
      | error e => exact ⟨_, rfl⟩
      | ok v => exact ⟨_, rfl⟩
  | unread i l e told hl he => exact .inl ⟨_, rfl⟩
  | working i l v told hl hv => exact .inr ⟨_, rfl⟩
  | replying i l v told hl hv => exact .inr ⟨_, rfl⟩
  | replyingHeard i l v told hl hv => exact .inr ⟨_, rfl⟩
  | replied i l v w told hl hv hw => exact .inl ⟨_, hostStep_readingLength hd _ rfl rfl⟩
  | repliedHeard i l v w told hl hv hw =>
      left
      rw [hostStep_readingData hd rfl rfl]
      cases c.deserialize (d.serialize (answer v)) with
      | error e => exact ⟨_, rfl⟩
      | ok res => exact ⟨_, rfl⟩
  | lost i l w toWorker told hl hw =>
      exact .inl ⟨_, by simp only [hostStep, hw.isGone, if_true]; rfl⟩
  -- The host has ended.
  | stopped i j l received w toWorker told hl hr hw => exact absurd rfl hnot
  | misread i l e w served told hl he hw => exact absurd rfl hnot

end Steps

omit [Inhabited H] [Inhabited W] in
/-- There is no reply to an object that the worker cannot read. -/
theorem reply_of_request_error {c : MessagePack H} {d : MessagePack W} {obj : Nat → H}
    {answer : W → W} {i : Nat} {e : Exn} (he : request c d obj i = .error e) :
    reply c d obj answer i = .error e := by
  unfold reply
  rw [he]
  rfl

omit [Inhabited W] in
/-- A worker that is gone was told to switch, or could not read the object. -/
theorem Gone.why {req : Except Exn W} {told : Bool} {w : Worker W} (h : Gone req told w) :
    (told = true ∨ ∃ e, req = .error e) ∧ (w = .failed → ∃ e, req = .error e) := by
  cases h with
  | left htold => exact ⟨.inl htold, nofun⟩
  | failed e he => exact ⟨.inr ⟨e, he⟩, fun _ => ⟨e, he⟩⟩

omit [Inhabited W] in
theorem Idle.ne_failed {told : Bool} {w : Worker W} (h : Idle told w) : w ≠ .failed := by
  cases h with
  | checking => exact nofun
  | readingLength => exact nofun
  | left htold => exact nofun

/-- Whatever the schedule, the host has received the replies to its first
    objects in order, and at most one default value after them, if the worker
    was told to switch or could not read the next object. The worker has
    served these and one more at most while the host goes on, and fails at
    nothing but an object it cannot read, unless the host has failed at a
    reply. The two never wait for each other. -/
theorem session_inOrder {c : MessagePack H} {d : MessagePack W} (hc : Sendable c)
    (hd : Sendable d) (obj : Nat → H) (answer : W → W) (s : Session H W)
    (h : (session c d obj answer).Reachable s) :
    (∃ n l, Replied c d obj answer n l ∧
      (s.received = l ∨ s.received = l ++ [default] ∧
        (s.told = true ∨ ∃ e, request c d obj n = .error e)) ∧
      (s.host ≠ .ended → s.served = n ∨ s.served = n + 1) ∧
      (s.worker = .failed → (∃ e, request c d obj n = .error e) ∨
        s.host = .ended ∧ ∃ e, reply c d obj answer n = .error e) ∧
      (s.host = .ended → s.told = true ∨ ∃ e, reply c d obj answer n = .error e)) ∧
    (s.host ≠ .ended → (∃ t, hostStep c obj s = some t) ∨
      ∃ t, workerStep d answer s = some t) := by
  have hs := reachable_lockstep hc hd h
  refine ⟨?_, hs.progress hc hd⟩
  -- One case per state of the lockstep, in each of which the rounds are counted by
  -- the list of the replies.
  cases hs with
  | asking i l w told hl hw =>
      exact ⟨i, l, hl, .inl rfl, fun _ => .inl rfl, fun hf => absurd hf hw.ne_failed, nofun⟩
  | asked i l w told hl hw =>
      exact ⟨i, l, hl, .inl rfl, fun _ => .inl rfl, fun hf => absurd hf hw.ne_failed, nofun⟩
  | heard i l told hl => exact ⟨i, l, hl, .inl rfl, fun _ => .inl rfl, nofun, nofun⟩
  | sent i l w told hl hw =>
      exact ⟨i, l, hl, .inl rfl, fun _ => .inl rfl, fun hf => absurd hf hw.ne_failed, nofun⟩
  | sentHeard i l told hl => exact ⟨i, l, hl, .inl rfl, fun _ => .inl rfl, nofun, nofun⟩
  | unread i l e told hl he =>
      exact ⟨i, l, hl, .inl rfl, fun _ => .inl rfl, fun _ => .inl ⟨e, he⟩, nofun⟩
  | working i l v told hl hv => exact ⟨i, l, hl, .inl rfl, fun _ => .inr rfl, nofun, nofun⟩
  | replying i l v told hl hv => exact ⟨i, l, hl, .inl rfl, fun _ => .inr rfl, nofun, nofun⟩
  | replyingHeard i l v told hl hv => exact ⟨i, l, hl, .inl rfl, fun _ => .inr rfl, nofun, nofun⟩
  | replied i l v w told hl hv hw =>
      exact ⟨i, l, hl, .inl rfl, fun _ => .inr rfl, fun hf => absurd hf hw.ne_failed, nofun⟩
  | repliedHeard i l v w told hl hv hw =>
      exact ⟨i, l, hl, .inl rfl, fun _ => .inr rfl, fun hf => absurd hf hw.ne_failed, nofun⟩
  | lost i l w toWorker told hl hw =>
      -- The worker is gone: it was told, or could not read the request.
      rcases hw.why with ⟨hgone, hfailed⟩
      exact ⟨i, l, hl, .inr ⟨rfl, hgone⟩, fun _ => .inl rfl, fun hf => .inl (hfailed hf), nofun⟩
  | stopped i j l received w toWorker told hl hr hw =>
      rcases hw.why with ⟨hgone, hfailed⟩
      refine ⟨i, l, hl, hr.imp id (fun h => ⟨h, hgone⟩), fun hnot => absurd rfl hnot,
        fun hf => .inl (hfailed hf), fun _ => hgone.imp id ?_⟩
      -- A request that cannot be read has no reply that can.
      rintro ⟨e, he⟩
      exact ⟨e, reply_of_request_error he⟩
  | misread i l e w served told hl he hw =>
      exact ⟨i, l, hl, .inl rfl, fun hnot => absurd rfl hnot, fun _ => .inr ⟨rfl, e, he⟩,
        fun _ => .inr ⟨e, he⟩⟩

/-- A byte as MessagePack writes it: by itself if it is small, and else after
    a mark. -/
def byteFormat : MessagePack UInt8 where
  serialize := fun b => if b < 128 then [b] else [204, b]
  deserialize
    | [b] => if b < 128 then .ok b else .error .io
    | [204, b] => .ok b
    | _ => .error .io
  deserialize_serialize := by
    intro b
    by_cases hb : b < 128
    · simp only [if_pos hb]
    · simp only [if_neg hb]

theorem byteFormat_sendable : Sendable byteFormat := by
  intro b
  unfold byteFormat
  by_cases hb : b < 128
  · simp only [if_pos hb]
    exact ⟨List.cons_ne_nil b [], by rw [List.length_singleton]; decide⟩
  · simp only [if_neg hb]
    exact ⟨List.cons_ne_nil 204 [b], by rw [List.length_cons, List.length_singleton]; decide⟩

/-- A host that counts and a worker that adds a hundred, after a round. -/
theorem session_inOrder_round :
    ∃ s, (session byteFormat byteFormat UInt8.ofNat (· + 100)).Reachable s ∧
      s.received = [100] ∧
      ∃ n l, Replied byteFormat byteFormat UInt8.ofNat (· + 100) n l ∧
        (s.received = l ∨ s.received = l ++ [default] ∧
          (s.told = true ∨ ∃ e, request byteFormat byteFormat UInt8.ofNat n = .error e)) := by
  rcases System.exists_exec (step byteFormat byteFormat UInt8.ofNat (· + 100)) start
    [.host, .host, .worker, .worker, .worker, .worker, .worker, .host, .host]
    (fun s => s.received == [100]) (by rfl) with ⟨s, hexec, hreceived⟩
  have hs : (session byteFormat byteFormat UInt8.ofNat (· + 100)).Reachable s :=
    System.reachable_of_exec _ start s (.init start rfl) hexec
  rcases (session_inOrder byteFormat_sendable byteFormat_sendable _ _ s hs).1 with
    ⟨n, l, hl, hr, -⟩
  exact ⟨s, hs, eq_of_beq hreceived, n, l, hl, hr⟩

end

end ContextSwitchExample

end BlogSample
