import BlogSample.Theory.Threads

/-!
# A Device for One Session

The driver of `device-module.c`, and any number of `userapp` processes that write
its buffer or read it. The driver takes a semaphore when the device is opened and
gives it back on release, and copies without any lock in between, byte by byte.

So nobody reads half of a message: what a process reads is all of what was written
last before it, although the copies of the others are cut into bytes. This is so
whichever processes are interrupted in `open`, or killed later on, since the device
is released for them.

Both buffers of a process have the size of the one in the driver. What the user types
ends with a zero in the one that is written, and what is behind the zero is written
with it. `printf` stops at the zero.

## Main definitions

* `Terminated`, `cString`: A buffer with a string, and the string.
* `Command`, `Place`, `Userapp`, `Device`: The state.
* `goOn`, `interrupt`: What a process does, and what a signal does to it.
* `device`: The runs.
* `lastWritten`: What was written last.
* `Sound`: The invariant.

## Theorems

* `set_take_append_drop`: One byte more is copied.
* `Sound.turn`, `Sound.session`, `Sound.record`: A step of a process that is alone with
  the device, one that logs nothing, and one that does.
* `sound_goOn`, `sound_interrupt`, `sound_step`: The invariant is kept.
* `reads_last_written`: What is read, and that nobody is stuck.
-/

namespace BlogSample

namespace DeviceModule

open Transition Threads

/-- `sizeof(data)`. -/
def size : Nat := 100

/-- A buffer of this size in which a string ends. -/
structure Terminated (buf : List UInt8) : Prop where
  length : buf.length = size
  zero : 0 ∈ buf

/-- What `%s` prints of a buffer. -/
def cString (buf : List UInt8) : List UInt8 :=
  buf.takeWhile (fun byte => byte != 0)

/-- What the user types: `w` with the contents of `write_buf`, `r`, or something else. -/
inductive Command
  | write (buf : List UInt8)
  | read
  | other
  deriving DecidableEq

/-- Where a process is: about to open the device; about to look at the command; in `write`,
    with a number of bytes copied; in `read`, with those copied; about to print what it has
    read; about to close the device; at its end. -/
inductive Place
  | opening
  | opened
  | writing (buf : List UInt8) (copied : Nat)
  | reading (buf : List UInt8)
  | printing (buf : List UInt8)
  | closing
  | done
  deriving DecidableEq

/-- A process. -/
structure Userapp where
  command : Command
  place : Place
  deriving DecidableEq

/-- A process has written its buffer, or prints the string in what it has read. -/
inductive Event
  | wrote (i : Nat) (buf : List UInt8)
  | printed (i : Nat) (text : List UInt8)
  deriving DecidableEq

/-- `virtual_device`, the processes, and what has happened. -/
structure Device where
  data : List UInt8
  sem : Nat
  processes : List Userapp
  log : List Event

/-- A process goes on to another place. -/
def Device.move (s : Device) (i : Nat) (p : Userapp) (place : Place) : Device :=
  { s with processes := s.processes.set i ⟨p.command, place⟩ }

/-- What a process does next, with `device_open`, `device_write`, `device_read` and
    `device_close`. -/
def goOn (s : Device) (i : Nat) (p : Userapp) : Option Device :=
  match p.place with
  | .opening => if 0 < s.sem then some ({ s with sem := s.sem - 1 }.move i p .opened) else none
  | .opened =>
      match p.command with
      | .write buf => some (s.move i p (.writing buf 0))
      | .read => some (s.move i p (.reading []))
      | .other => some (s.move i p .closing)
  | .writing buf copied =>
      match buf[copied]? with
      | some byte =>
          some ({ s with data := s.data.set copied byte }.move i p (.writing buf (copied + 1)))
      | none => some ({ s with log := s.log ++ [Event.wrote i buf] }.move i p .closing)
  | .reading buf =>
      match s.data[buf.length]? with
      | some byte => some (s.move i p (.reading (buf ++ [byte])))
      | none => some (s.move i p (.printing buf))
  | .printing buf =>
      some ({ s with log := s.log ++ [Event.printed i (cString buf)] }.move i p .closing)
  | .closing => some ({ s with sem := s.sem + 1 }.move i p .done)
  | .done => none

/-- A signal: `down_interruptible` gives up and `open` fails, or the process is killed, and
    the device is closed for it. A copy is not interrupted. -/
def interrupt (s : Device) (i : Nat) (p : Userapp) : Option Device :=
  match p.place with
  | .opening => some (s.move i p .done)
  | .opened => some (s.move i p .closing)
  | .printing _ => some (s.move i p .closing)
  | _ => none

/-- A process goes on, or gets a signal. -/
inductive Action
  | goOn (i : Nat)
  | signal (i : Nat)

/-- One step. -/
def step (s : Device) : Action → Option Device
  | .goOn i => (s.processes[i]?).bind (DeviceModule.goOn s i)
  | .signal i => (s.processes[i]?).bind (interrupt s i)

/-- The module has been loaded, and no process has opened the device. -/
def Initial (s : Device) : Prop :=
  s.data = List.replicate size 0 ∧ s.sem = 1 ∧ s.log = [] ∧ ∀ p ∈ s.processes,
    p.place = .opening ∧ ∀ buf, p.command = .write buf → Terminated buf

/-- The runs of the processes. -/
def device : System Device Action :=
  System.ofFn Initial step

/-- What an event leaves in the device. -/
def leaves (buf : List UInt8) : Event → List UInt8
  | .wrote _ new => new
  | .printed _ _ => buf

/-- What was written last, or zeros. -/
def lastWritten (log : List Event) : List UInt8 :=
  log.foldl leaves (List.replicate size 0)

/-- Everything that was printed is the string in what was written last before. -/
def Atomic (log : List Event) : Prop :=
  ∀ before i text after, log = before ++ .printed i text :: after →
    text = cString (lastWritten before)

/-- A process has the device open. -/
def holds (p : Userapp) : Nat :=
  match p.place with
  | .opening => 0
  | .done => 0
  | _ => 1

/-- What is in the device while a process has it open, with what was written last. -/
def Agrees (data last : List UInt8) : Place → Prop
  | .opening => True
  | .done => True
  | .opened => data = last
  | .closing => data = last
  | .writing buf copied =>
      copied ≤ size ∧ Terminated buf ∧ data = buf.take copied ++ last.drop copied
  | .reading buf => data = last ∧ buf.length ≤ size ∧ buf = last.take buf.length
  | .printing buf => data = last ∧ buf = last

/-- The semaphore is free or one process has the device open, and between the sessions the
    device holds what was written last. -/
structure Sound (s : Device) : Prop where
  sem : s.sem + tally holds s.processes = 1
  atomic : Atomic s.log
  terminated : Terminated (lastWritten s.log)
  agrees : ∀ (i : Nat) (p : Userapp), s.processes[i]? = some p →
    Agrees s.data (lastWritten s.log) p.place
  fits : ∀ (i : Nat) (p : Userapp), s.processes[i]? = some p →
    ∀ buf, p.command = .write buf → Terminated buf
  idle : tally holds s.processes = 0 → s.data = lastWritten s.log

theorem lastWritten_concat (log : List Event) (e : Event) :
    lastWritten (log ++ [e]) = leaves (lastWritten log) e := by
  rw [lastWritten, List.foldl_append]
  rfl

theorem Atomic.wrote {log : List Event} (h : Atomic log) (i : Nat) (buf : List UInt8) :
    Atomic (log ++ [.wrote i buf]) := by
  intro before j b after heq
  rcases List.eq_nil_or_concat after with rfl | ⟨after, e, rfl⟩
  · cases (List.append_inj' heq rfl).2
  · rw [List.concat_eq_append, ← List.cons_append, ← List.append_assoc] at heq
    exact h before j b after (List.append_inj' heq rfl).1

theorem Atomic.printed {log : List Event} (h : Atomic log) (i : Nat) {text : List UInt8}
    (htext : text = cString (lastWritten log)) : Atomic (log ++ [.printed i text]) := by
  intro before j b after heq
  rcases List.eq_nil_or_concat after with rfl | ⟨after, e, rfl⟩
  · rcases List.append_inj' heq rfl with ⟨rfl, hlast⟩
    cases hlast
    exact htext
  · rw [List.concat_eq_append, ← List.cons_append, ← List.append_assoc] at heq
    exact h before j b after (List.append_inj' heq rfl).1

/-- One byte more is copied. -/
theorem set_take_append_drop {buf last : List UInt8} {k : Nat} {byte : UInt8}
    (hbyte : buf[k]? = some byte) (hlen : k < last.length) :
    (buf.take k ++ last.drop k).set k byte = buf.take (k + 1) ++ last.drop (k + 1) := by
  rcases List.getElem?_eq_some_iff.mp hbyte with ⟨hk, rfl⟩
  have htake : (buf.take k).length = k := List.length_take_of_le (Nat.le_of_lt hk)
  rw [List.set_append_right _ _ (Nat.le_of_eq htake), htake, Nat.sub_self,
    List.drop_eq_getElem_cons hlen, List.set_cons_zero, List.take_succ_eq_append_getElem hk,
    List.append_assoc, List.singleton_append]

/-- A process that does not have the device open need not know what is in it. -/
theorem agrees_of_holds (data last : List UInt8) {p : Userapp} (h : holds p = 0) :
    Agrees data last p.place := by
  rcases p with ⟨command, place⟩
  cases place with
  | opening => trivial
  | done => trivial
  | opened => cases h
  | writing buf copied => cases h
  | reading buf => cases h
  | printing buf => cases h
  | closing => cases h

section Steps

variable {s t : Device} {i : Nat} {p : Userapp} {place : Place} (h : Sound s)
  (hp : s.processes[i]? = some p)
  (hprocesses : t.processes = s.processes.set i ⟨p.command, place⟩)
include h hp

/-- Whoever has the device open has it alone. -/
theorem Sound.alone (hholds : holds p = 1) : s.sem = 0 ∧ tally holds s.processes = 1 := by
  have hsem := h.sem
  have hle := le_tally holds (List.mem_of_getElem? hp)
  omega

include hprocesses

theorem Sound.fits_move : ∀ (j : Nat) (q : Userapp), t.processes[j]? = some q →
    ∀ buf, q.command = .write buf → Terminated buf := by
  rw [hprocesses]
  exact forall_set
    (Q := fun (_ : Nat) (q : Userapp) => ∀ buf, q.command = .write buf → Terminated buf)
    (h.fits i p hp) (fun j q _ hq => h.fits j q hq)

/-- A step of a process that has the device open, before it or after it. The others need not
    know of it. -/
theorem Sound.turn (hsem : t.sem + holds ⟨p.command, place⟩ = 1)
    (htally : tally holds s.processes = holds p) (hatomic : Atomic t.log)
    (hterminated : Terminated (lastWritten t.log))
    (hagrees : Agrees t.data (lastWritten t.log) place)
    (hidle : holds ⟨p.command, place⟩ = 0 → t.data = lastWritten t.log) : Sound t := by
  have hset := tally_set holds ⟨p.command, place⟩ hp
  rw [← hprocesses] at hset
  refine ⟨by omega, hatomic, hterminated, ?_, h.fits_move hp hprocesses,
    fun hzero => hidle (by omega)⟩
  rw [hprocesses]
  refine forall_set
    (Q := fun (_ : Nat) (q : Userapp) => Agrees t.data (lastWritten t.log) q.place) hagrees
    (fun j q hj hq => agrees_of_holds _ _ ?_)
  have hadd := add_le_tally holds (Ne.symm hj) hp hq
  omega

/-- A step in a session that leaves the log as it is. -/
theorem Sound.session (hholds : holds p = 1) (hplace : holds ⟨p.command, place⟩ = 1)
    (hsem : t.sem = s.sem) (hlog : t.log = s.log)
    (hagrees : Agrees t.data (lastWritten s.log) place) : Sound t := by
  rcases h.alone hp hholds with ⟨hzero, hone⟩
  rw [← hlog] at hagrees
  refine h.turn hp hprocesses ?_ (hone.trans hholds.symm) ?_ ?_ hagrees (fun h0 => ?_)
  · rw [hsem, hzero, hplace]
  · rw [hlog]
    exact h.atomic
  · rw [hlog]
    exact h.terminated
  · rw [hplace] at h0
    cases h0

end Steps

/-- The last step of a session that is logged. -/
theorem Sound.record {s : Device} {i : Nat} {p : Userapp} (h : Sound s)
    (hp : s.processes[i]? = some p) (hholds : holds p = 1) (e : Event)
    (hatomic : Atomic (s.log ++ [e])) (hterminated : Terminated (leaves (lastWritten s.log) e))
    (hdata : s.data = leaves (lastWritten s.log) e) :
    Sound ({ s with log := s.log ++ [e] }.move i p .closing) := by
  rcases h.alone hp hholds with ⟨hzero, hone⟩
  have hlast : lastWritten (s.log ++ [e]) = leaves (lastWritten s.log) e := lastWritten_concat _ _
  refine h.turn hp rfl ?_ (hone.trans hholds.symm) hatomic ?_ ?_ nofun
  · change s.sem + 1 = 1
    rw [hzero]
  · change Terminated (lastWritten (s.log ++ [e]))
    rw [hlast]
    exact hterminated
  · change s.data = lastWritten (s.log ++ [e])
    rw [hlast, hdata]

/-- A process goes on. -/
theorem sound_goOn {s t : Device} {i : Nat} {p : Userapp} (h : Sound s)
    (hp : s.processes[i]? = some p) (hgo : goOn s i p = some t) : Sound t := by
  have hagrees := h.agrees i p hp
  rcases p with ⟨command, place⟩
  cases place with
  | opening =>
      rcases Option.ite_none_right_eq_some.mp hgo with ⟨hpos, heq⟩
      cases heq
      have hsem := h.sem
      have hnone : tally holds s.processes = 0 := by omega
      refine h.turn hp rfl ?_ hnone h.atomic h.terminated (h.idle hnone) nofun
      change s.sem - 1 + 1 = 1
      omega
  | opened =>
      cases command with
      | write buf =>
          cases hgo
          exact h.session hp rfl rfl rfl rfl rfl ⟨Nat.zero_le _, h.fits i _ hp buf rfl, hagrees⟩
      | read =>
          cases hgo
          exact h.session hp rfl rfl rfl rfl rfl ⟨hagrees, Nat.zero_le _, rfl⟩
      | other =>
          cases hgo
          exact h.session hp rfl rfl rfl rfl rfl hagrees
  | writing buf copied =>
      rcases hagrees with ⟨hle, hbuf, hdata⟩
      have hlen := hbuf.length
      unfold goOn at hgo
      cases hbyte : buf[copied]? with
      | some byte =>
          simp only [hbyte] at hgo
          cases hgo
          have hlt : copied < buf.length := (List.getElem?_eq_some_iff.mp hbyte).1
          rw [hlen] at hlt
          refine h.session hp rfl rfl rfl rfl rfl ⟨hlt, hbuf, ?_⟩
          change s.data.set copied byte = _
          rw [hdata, set_take_append_drop hbyte (by rw [h.terminated.length]; exact hlt)]
      | none =>
          -- The whole buffer has been copied.
          simp only [hbyte] at hgo
          cases hgo
          have hge : buf.length ≤ copied := List.getElem?_eq_none_iff.mp hbyte
          have hall : s.data = buf := by
            rw [hdata, List.take_of_length_le hge,
              List.drop_eq_nil_of_le (by rw [h.terminated.length]; omega), List.append_nil]
          exact h.record hp rfl (.wrote i buf) (h.atomic.wrote i buf) hbuf hall
  | reading buf =>
      rcases hagrees with ⟨hdata, hle, hbuf⟩
      unfold goOn at hgo
      cases hbyte : s.data[buf.length]? with
      | some byte =>
          simp only [hbyte] at hgo
          cases hgo
          rw [hdata] at hbyte
          rcases List.getElem?_eq_some_iff.mp hbyte with ⟨hlt, rfl⟩
          refine h.session hp rfl rfl rfl rfl rfl ⟨hdata, ?_, ?_⟩
          · rw [List.length_append, List.length_singleton, ← h.terminated.length]
            exact hlt
          · rw [List.length_append, List.length_singleton, List.take_succ_eq_append_getElem hlt,
              ← hbuf]
      | none =>
          simp only [hbyte] at hgo
          cases hgo
          rw [hdata, List.getElem?_eq_none_iff] at hbyte
          refine h.session hp rfl rfl rfl rfl rfl ⟨hdata, ?_⟩
          rw [hbuf, List.take_of_length_le hbyte]
  | printing buf =>
      cases hgo
      exact h.record hp rfl (.printed i (cString buf))
        (h.atomic.printed i (congrArg cString hagrees.2)) h.terminated hagrees.1
  | closing =>
      cases hgo
      rcases h.alone hp rfl with ⟨hzero, hone⟩
      refine h.turn hp rfl ?_ hone h.atomic h.terminated trivial (fun _ => hagrees)
      change s.sem + 1 + 0 = 1
      rw [hzero]
  | done => cases hgo

/-- A process gets a signal. -/
theorem sound_interrupt {s t : Device} {i : Nat} {p : Userapp} (h : Sound s)
    (hp : s.processes[i]? = some p) (hgo : interrupt s i p = some t) : Sound t := by
  have hagrees := h.agrees i p hp
  rcases p with ⟨command, place⟩
  cases place with
  | opening =>
      cases hgo
      -- Whoever is interrupted in `down` has not got the device.
      have hsame : tally holds (s.processes.set i ⟨command, .done⟩) = tally holds s.processes :=
        tally_set holds ⟨command, .done⟩ hp
      refine ⟨?_, h.atomic, h.terminated, ?_, h.fits_move hp rfl, fun hzero => h.idle ?_⟩
      · change s.sem + tally holds (s.processes.set i ⟨command, .done⟩) = 1
        rw [hsame, h.sem]
      · exact forall_set
          (Q := fun (_ : Nat) (q : Userapp) => Agrees s.data (lastWritten s.log) q.place) trivial
          (fun j q _ hq => h.agrees j q hq)
      · rw [← hsame]
        exact hzero
  | opened =>
      cases hgo
      exact h.session hp rfl rfl rfl rfl rfl hagrees
  | printing buf =>
      cases hgo
      exact h.session hp rfl rfl rfl rfl rfl hagrees.1
  | writing buf copied => cases hgo
  | reading buf => cases hgo
  | closing => cases hgo
  | done => cases hgo

theorem sound_step {s t : Device} {a : Action} (h : Sound s) (hstep : step s a = some t) :
    Sound t := by
  cases a with
  | goOn i =>
      rcases Option.bind_eq_some_iff.mp hstep with ⟨p, hp, hgo⟩
      exact sound_goOn h hp hgo
  | signal i =>
      rcases Option.bind_eq_some_iff.mp hstep with ⟨p, hp, hgo⟩
      exact sound_interrupt h hp hgo

theorem reachable_sound {s : Device} (h : device.Reachable s) : Sound s := by
  refine h.invariant Sound (fun s hs => ?_) (fun s a t hs hstep => sound_step hs hstep)
  rcases hs with ⟨hdata, hsem, hlog, hprocesses⟩
  have hall {i : Nat} {p : Userapp} (hp : s.processes[i]? = some p) :=
    hprocesses p (List.mem_of_getElem? hp)
  have hzero : tally holds s.processes = 0 := by
    refine tally_eq_zero (fun p hp => ?_)
    rw [holds, (hprocesses p hp).1]
  refine ⟨by rw [hsem, hzero], ?_, ?_, fun i p hp => ?_, fun i p hp => (hall hp).2, fun _ => ?_⟩
  · intro before i buf after heq
    rw [hlog] at heq
    exact absurd heq.symm (List.append_ne_nil_of_right_ne_nil _ (List.cons_ne_nil _ _))
  · rw [hlog]
    exact ⟨List.length_replicate, List.mem_replicate.mpr ⟨nofun, rfl⟩⟩
  · rw [(hall hp).1]
    trivial
  · rw [hdata, hlog]
    rfl

/-- A process that has the device open can always go on. -/
theorem exists_goOn_of_holds (s : Device) (i : Nat) {p : Userapp} (h : 0 < holds p) :
    ∃ t, goOn s i p = some t := by
  rcases p with ⟨command, place⟩
  cases place with
  | opening => exact absurd h (Nat.lt_irrefl 0)
  | done => exact absurd h (Nat.lt_irrefl 0)
  | opened => cases command <;> exact ⟨_, rfl⟩
  | writing buf copied =>
      simp only [goOn]
      cases buf[copied]? with
      | some byte => exact ⟨_, rfl⟩
      | none => exact ⟨_, rfl⟩
  | reading buf =>
      simp only [goOn]
      cases s.data[buf.length]? with
      | some byte => exact ⟨_, rfl⟩
      | none => exact ⟨_, rfl⟩
  | printing buf => exact ⟨_, rfl⟩
  | closing => exact ⟨_, rfl⟩

/-- In every interleaving, what a process prints is the string in what was written last before
    it printed, or in the zeros from the beginning; a process that is about to print has all
    of that in its buffer, and the string ends there; and as long as not all have come to
    their end, some process can go on. -/
theorem reads_last_written {s : Device} (h : device.Reachable s) :
    (∀ before i text after, s.log = before ++ .printed i text :: after →
      text = cString (lastWritten before)) ∧
    (∀ p ∈ s.processes, ∀ buf, p.place = .printing buf →
      buf = lastWritten s.log ∧ Terminated buf) ∧
    ((∀ p ∈ s.processes, p.place = .done) ∨ ∃ i t, step s (.goOn i) = some t) := by
  have hs := reachable_sound h
  refine ⟨hs.atomic, fun p hp buf hplace => ?_, ?_⟩
  · rcases List.mem_iff_getElem?.mp hp with ⟨i, hi⟩
    have hagrees := hs.agrees i p hi
    rw [hplace] at hagrees
    exact ⟨hagrees.2, hagrees.2 ▸ hs.terminated⟩
  -- Whoever has the device can go on.
  by_cases hpos : 0 < tally holds s.processes
  · rcases (tally_pos_iff holds s.processes).mp hpos with ⟨p, hmem, hholds⟩
    rcases List.mem_iff_getElem?.mp hmem with ⟨i, hp⟩
    rcases exists_goOn_of_holds s i hholds with ⟨t, ht⟩
    exact .inr ⟨i, t, Option.bind_eq_some_iff.mpr ⟨p, hp, ht⟩⟩
  -- The semaphore is free, so whoever wants to open the device can.
  · have hsem := hs.sem
    by_cases hall : ∀ p ∈ s.processes, p.place = .done
    · exact .inl hall
    · right
      rcases Classical.not_forall.mp hall with ⟨p, hp⟩
      rcases Classical.not_imp.mp hp with ⟨hmem, hnot⟩
      rcases List.mem_iff_getElem?.mp hmem with ⟨i, hi⟩
      have hle := le_tally holds hmem
      have hopening : p.place = .opening := by
        rcases p with ⟨command, place⟩
        cases place with
        | opening => rfl
        | done => exact absurd rfl hnot
        | opened => exact absurd hle hpos
        | writing buf copied => exact absurd hle hpos
        | reading buf => exact absurd hle hpos
        | printing buf => exact absurd hle hpos
        | closing => exact absurd hle hpos
      -- `down` succeeds at once.
      have hgo : goOn s i p = some ({ s with sem := s.sem - 1 }.move i p .opened) := by
        unfold goOn
        rw [hopening]
        exact if_pos (by omega)
      exact ⟨i, _, Option.bind_eq_some_iff.mpr ⟨p, hi, hgo⟩⟩

/-- Two letters and a zero, with what was on the stack behind them. -/
def message : List UInt8 :=
  [104, 105, 0] ++ List.replicate 97 7

/-- A process that writes, and one that reads. -/
def two : Device where
  data := List.replicate size 0
  sem := 1
  processes := [⟨.write message, .opening⟩, ⟨.read, .opening⟩]
  log := []

theorem initial_two : Initial two := by
  refine ⟨rfl, rfl, rfl, fun p hp => ?_⟩
  rcases List.mem_cons.mp hp with rfl | hp
  · refine ⟨rfl, fun buf hbuf => ?_⟩
    cases hbuf
    exact ⟨by decide, by decide⟩
  · rw [List.mem_singleton.mp hp]
    exact ⟨rfl, nofun⟩

/-- The second process reads after the first one has written. -/
theorem reads_last_written_two : ∃ s, device.Reachable s ∧
    s.log = [.wrote 0 message, .printed 1 [104, 105]] ∧
    (∀ before i text after, s.log = before ++ .printed i text :: after →
      text = cString (lastWritten before)) ∧
    (∀ p ∈ s.processes, ∀ buf, p.place = .printing buf →
      buf = lastWritten s.log ∧ Terminated buf) ∧
    ((∀ p ∈ s.processes, p.place = .done) ∨ ∃ i t, step s (.goOn i) = some t) := by
  have hstart : device.Reachable two := .init two initial_two
  rcases System.exists_exec step two
    (List.replicate (size + 4) (.goOn 0) ++ List.replicate (size + 4) (.goOn 1))
    (fun s => s.log = [.wrote 0 message, .printed 1 [104, 105]]) (by decide +kernel) with
    ⟨s, hrun, hlog⟩
  have hreach := System.reachable_of_exec _ two s hstart hrun
  exact ⟨s, hreach, of_decide_eq_true hlog, reads_last_written hreach⟩

end DeviceModule

end BlogSample
