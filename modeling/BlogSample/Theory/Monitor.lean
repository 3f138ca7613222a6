import BlogSample.Theory.Tally
import BlogSample.Theory.Transition

/-!
# Monitors

Threads that share data behind one lock, with `Wait`, `Pulse` and `PulseAll`.
The lock block of a method runs in stretches: from where a thread gets the
lock to where it waits or leaves the block. No other thread gets in between,
so a stretch is one step, and a program is what a stretch computes.

A thread that waits is in the wait set until it is pulsed, or until its time is
up. It then stands in line for the lock like a thread that has just made its
call, and only on its turn does `Wait` return to it, with whether it was
pulsed. `Pulse` wakes any one thread of the wait set, so its step is labelled
with the choice. Data that a method touches outside the lock is touched by
steps of their own.

How many threads wait for which kind of call, and how many of them have been
pulsed, are tallies of the list of threads. Lost wake-ups are about nothing
else.

## Main definitions

* `Thread`: Where a thread is.
* `Stretch`: What a stretch of a lock block does.
* `Program`: The methods behind a lock.
* `Sent`: What a signal does to the threads.
* `Turn`: What a turn with the lock does.
* `step`: A step of one thread.
* `Moves`: What a step does.
* `system`: The runs from where no call has been made.
* `State.waiting`, `State.pulsed`, `State.inLine`, `State.outside`: How many
  threads wait, have been pulsed, are in line, or are outside.

## Theorems

* `step_moves`: What a step does, case by case.
* `Sent.turn`: A turn is a `Turn`.
* `Sent.pulse_counts`, `Sent.pulseAll_counts`: How many threads a pulse wakes.
* `shared_invariant`: An invariant of the shared data alone.
-/

namespace BlogSample

namespace Monitor

open Transition

universe u v w

/-- Where a thread is: outside the lock, in line for it with a new call,
    in the wait set, or in line for the lock again with what `Wait` will
    return. -/
inductive Thread (ω : Type v) (κ : Type w)
  | outside (o : ω)
  | entering (k : κ)
  | waiting (k : κ)
  | ready (k : κ) (pulsed : Bool)
  deriving DecidableEq

/-- How a thread comes to run a stretch: it enters the block, or its `Wait`
    returns. -/
inductive Entry
  | enters
  | resumes (pulsed : Bool)
  deriving DecidableEq

/-- The wake-ups of a stretch. -/
inductive Signal
  | silent
  | pulse
  | pulseAll
  deriving DecidableEq

/-- Where a stretch ends: in `Wait`, or outside the block. -/
inductive Next (ω : Type v)
  | waits
  | leaves (o : ω)

/-- What a stretch does: the shared data after it, its wake-ups, and where it
    ends. -/
structure Stretch (σ : Type u) (ω : Type v) where
  shared : σ
  signal : Signal
  next : Next ω

/-- The methods behind a lock: which calls may be made from where, what a
    stretch of a call computes, which calls wait for a limited time, and the
    steps that are taken outside the lock. -/
structure Program (σ : Type u) (ω : Type v) (κ : Type w) where
  calls : ω → κ → Bool
  block : κ → Entry → σ → Stretch σ ω
  timed : κ → Bool
  act : ω → σ → Option (σ × ω)

/-- The shared data and the threads. -/
structure State (σ : Type u) (ω : Type v) (κ : Type w) where
  shared : σ
  threads : List (Thread ω κ)

/-- A thread makes a call, has its turn with the lock, has waited for too
    long, or takes a step outside. A turn names the thread that a pulse
    wakes. -/
inductive Label (κ : Type w)
  | call (th : Nat) (k : κ)
  | run (th choice : Nat)
  | expire (th : Nat)
  | act (th : Nat)
  deriving DecidableEq

variable {σ : Type u} {ω : Type v} {κ : Type w}

namespace Thread

/-- The stretch that a thread in line for the lock will run. -/
def turn : Thread ω κ → Option (κ × Entry)
  | .entering k => some (k, .enters)
  | .ready k pulsed => some (k, .resumes pulsed)
  | _ => none

/-- Is the thread in the wait set? -/
def isWaiting : Thread ω κ → Bool
  | .waiting _ => true
  | _ => false

/-- A thread that waits is taken out of the wait set. -/
def wake : Thread ω κ → Thread ω κ
  | .waiting k => .ready k true
  | thread => thread

/-- Counts the threads that wait in a call of some kind. -/
def waitingAs (p : κ → Bool) : Thread ω κ → Nat
  | .waiting k => (p k).toNat
  | _ => 0

/-- Counts the threads that have been pulsed in a call of some kind and have
    not had their turn. -/
def pulsedAs (p : κ → Bool) : Thread ω κ → Nat
  | .ready k true => (p k).toNat
  | _ => 0

/-- Counts the threads that are in line for the lock in a call of some kind. -/
def inLineAs (p : κ → Bool) : Thread ω κ → Nat
  | .entering k => (p k).toNat
  | .ready k _ => (p k).toNat
  | _ => 0

/-- Counts the threads that are somewhere outside. -/
def outsideAs (q : ω → Bool) : Thread ω κ → Nat
  | .outside o => (q o).toNat
  | _ => 0

end Thread

/-- How many threads wait in a call of some kind. -/
def State.waiting (s : State σ ω κ) (p : κ → Bool) : Nat :=
  tally (Thread.waitingAs p) s.threads

/-- How many threads have been pulsed in a call of some kind and have not had
    their turn. -/
def State.pulsed (s : State σ ω κ) (p : κ → Bool) : Nat :=
  tally (Thread.pulsedAs p) s.threads

/-- How many threads are in line for the lock in a call of some kind. -/
def State.inLine (s : State σ ω κ) (p : κ → Bool) : Nat :=
  tally (Thread.inLineAs p) s.threads

/-- How many threads are somewhere outside. -/
def State.outside (s : State σ ω κ) (q : ω → Bool) : Nat :=
  tally (Thread.outsideAs q) s.threads

/-- Where a stretch of a call leaves its thread. -/
def Next.thread (k : κ) : Next ω → Thread ω κ
  | .waits => .waiting k
  | .leaves o => .outside o

/-- Counts a thread that comes to its turn by a pulse. -/
def Entry.pulsedAs (p : κ → Bool) (k : κ) : Entry → Nat
  | .resumes true => (p k).toNat
  | _ => 0

/-- Counts a thread that ends its stretch in `Wait`. -/
def Next.waitsAs (p : κ → Bool) (k : κ) : Next ω → Nat
  | .waits => (p k).toNat
  | .leaves _ => 0

/-- The threads after a signal. A pulse wakes the chosen thread, which has to
    wait unless no thread does. -/
def Signal.send (choice : Nat) (threads : List (Thread ω κ)) :
    Signal → Option (List (Thread ω κ))
  | .silent => some threads
  | .pulse =>
      match threads[choice]? with
      | some (.waiting k) => some (threads.set choice (.ready k true))
      -- A pulse is lost only if the wait set is empty.
      | _ => if threads.any Thread.isWaiting then none else some threads
  | .pulseAll => some (threads.map Thread.wake)

/-- One thread is somewhere else. -/
def State.setThread (s : State σ ω κ) (th : Nat) (thread : Thread ω κ) : State σ ω κ :=
  { s with threads := s.threads.set th thread }

/-- One step of one thread. -/
def step (P : Program σ ω κ) (s : State σ ω κ) : Label κ → Option (State σ ω κ)
  | .call th k =>
      match s.threads[th]? with
      | some (.outside o) => if P.calls o k then some (s.setThread th (.entering k)) else none
      | _ => none
  -- The lock is held for a whole stretch, so a turn is one step.
  | .run th choice =>
      (s.threads[th]?.bind Thread.turn).bind fun (k, entry) =>
        let stretch := P.block k entry s.shared
        (stretch.signal.send choice s.threads).map fun threads =>
          { shared := stretch.shared, threads := threads.set th (stretch.next.thread k) }
  | .expire th =>
      match s.threads[th]? with
      | some (.waiting k) => if P.timed k then some (s.setThread th (.ready k false)) else none
      | _ => none
  | .act th =>
      match s.threads[th]? with
      | some (.outside o) =>
          (P.act o s.shared).map fun (shared, o') =>
            { shared := shared, threads := s.threads.set th (.outside o') }
      | _ => none

/-- The runs that begin with the data `shared`, and with any number of threads,
    all at the same place outside. -/
def system (P : Program σ ω κ) (shared : σ) (o : ω) : System (State σ ω κ) (Label κ) :=
  System.ofFn (fun s => s.shared = shared ∧ ∀ thread ∈ s.threads, thread = .outside o) (step P)

/-- What a signal does to the threads. -/
inductive Sent (threads : List (Thread ω κ)) (choice : Nat) :
    Signal → List (Thread ω κ) → Prop
  | silent : Sent threads choice .silent threads
  | nobody (hnobody : ∀ thread ∈ threads, thread.isWaiting = false) :
      Sent threads choice .pulse threads
  | pulse {k : κ} (hchoice : threads[choice]? = some (.waiting k)) :
      Sent threads choice .pulse (threads.set choice (.ready k true))
  | pulseAll : Sent threads choice .pulseAll (threads.map Thread.wake)

/-- What a turn does: the stretch, its signal, and how many threads are where
    after it. -/
structure Turn (s : State σ ω κ) (choice : Nat) (k : κ) (entry : Entry) (stretch : Stretch σ ω)
    (woken : List (Thread ω κ)) (t : State σ ω κ) : Prop where
  shared : t.shared = stretch.shared
  sent : Sent s.threads choice stretch.signal woken
  waiting (p : κ → Bool) :
    t.waiting p = tally (Thread.waitingAs p) woken + stretch.next.waitsAs p k
  pulsed (p : κ → Bool) : t.pulsed p + entry.pulsedAs p k = tally (Thread.pulsedAs p) woken
  inLine (p : κ → Bool) : t.inLine p + (p k).toNat = tally (Thread.inLineAs p) woken
  outside (q : ω → Bool) : t.outside q = s.outside q + (stretch.next.thread k).outsideAs q

/-- What a step does. -/
inductive Moves (P : Program σ ω κ) (s : State σ ω κ) : Label κ → State σ ω κ → Prop
  | call {th : Nat} {o : ω} {k : κ} (hthread : s.threads[th]? = some (.outside o))
      (hcalls : P.calls o k = true) : Moves P s (.call th k) (s.setThread th (.entering k))
  | run {th choice : Nat} {thread : Thread ω κ} {k : κ} {entry : Entry}
      {threads : List (Thread ω κ)} (hthread : s.threads[th]? = some thread)
      (hturn : thread.turn = some (k, entry))
      (hsent : Sent s.threads choice (P.block k entry s.shared).signal threads) :
      Moves P s (.run th choice)
        { shared := (P.block k entry s.shared).shared
          threads := threads.set th ((P.block k entry s.shared).next.thread k) }
  | expire {th : Nat} {k : κ} (hthread : s.threads[th]? = some (.waiting k))
      (htimed : P.timed k = true) :
      Moves P s (.expire th) (s.setThread th (.ready k false))
  | act {th : Nat} {o o' : ω} {shared : σ} (hthread : s.threads[th]? = some (.outside o))
      (hact : P.act o s.shared = some (shared, o')) :
      Moves P s (.act th) { shared := shared, threads := s.threads.set th (.outside o') }

section Steps

variable {P : Program σ ω κ} {s t : State σ ω κ} {threads woken : List (Thread ω κ)} {choice : Nat}
  {signal : Signal} {k : κ} {entry : Entry} {stretch : Stretch σ ω}

theorem Entry.pulsedAs_of_not {p : κ → Bool} (h : p k = false) (entry : Entry) :
    entry.pulsedAs p k = 0 := by
  unfold Entry.pulsedAs
  split
  · rw [h]
    rfl
  · rfl

theorem Next.waitingAs_thread (next : Next ω) (p : κ → Bool) (k : κ) :
    (next.thread k).waitingAs p = next.waitsAs p k := by
  cases next with
  | waits => rfl
  | leaves o => rfl

theorem Next.pulsedAs_thread (next : Next ω) (p : κ → Bool) (k : κ) :
    (next.thread k).pulsedAs p = 0 := by
  cases next with
  | waits => rfl
  | leaves o => rfl

theorem Next.inLineAs_thread (next : Next ω) (p : κ → Bool) (k : κ) :
    (next.thread k).inLineAs p = 0 := by
  cases next with
  | waits => rfl
  | leaves o => rfl

/-- A signal that can be woken does what `Sent` says. -/
theorem send_sent (h : signal.send choice threads = some woken) :
    Sent threads choice signal woken := by
  cases signal with
  | silent =>
      unfold Signal.send at h
      cases h
      exact .silent
  | pulseAll =>
      unfold Signal.send at h
      cases h
      exact .pulseAll
  | pulse =>
      simp only [Signal.send] at h
      split at h
      · next k hchoice =>
          cases h
          exact .pulse hchoice
      · split at h
        · cases h
        · next hany =>
            cases h
            refine .nobody (fun thread hthread => ?_)
            by_contra hwaiting
            exact hany (List.any_eq_true.mpr ⟨thread, hthread, by simpa using hwaiting⟩)

/-- What a step does, case by case. -/
theorem step_moves {a : Label κ} (h : step P s a = some t) : Moves P s a t := by
  cases a with
  | call th k =>
      simp only [step] at h
      split at h
      · next o hthread =>
          split at h
          · next hcalls =>
              cases h
              exact .call hthread hcalls
          · cases h
      · cases h
  | run th choice =>
      simp only [step, Option.bind_eq_some_iff, Option.map_eq_some_iff] at h
      -- The stretch runs as a whole, from the entry to the wait or the end.
      rcases h with ⟨⟨k, entry⟩, ⟨thread, hthread, hturn⟩, threads, hsend, hrun⟩
      cases hrun
      exact .run hthread hturn (send_sent hsend)
  | expire th =>
      simp only [step] at h
      split at h
      · next k hthread =>
          split at h
          · next htimed =>
              cases h
              exact .expire hthread htimed
          · cases h
      · cases h
  | act th =>
      simp only [step] at h
      split at h
      · next o hthread =>
          rcases Option.map_eq_some_iff.mp h with ⟨⟨shared, o'⟩, hact, hshared⟩
          cases hshared
          exact .act hthread hact
      · cases h

/-- A signal leaves the threads alone that are not in the wait set. -/
theorem Sent.getElem? (h : Sent threads choice signal woken) {th : Nat} {thread : Thread ω κ}
    (hthread : threads[th]? = some thread) (hwaiting : thread.isWaiting = false) :
    woken[th]? = some thread := by
  cases h with
  | silent => exact hthread
  | nobody _ => exact hthread
  | pulse hchoice =>
      by_cases hth : choice = th
      -- The thread that is woken was in the wait set.
      · rw [hth, hthread, Option.some.injEq] at hchoice
        rw [hchoice] at hwaiting
        cases hwaiting
      · rw [List.getElem?_set_ne hth, hthread]
  | pulseAll =>
      rw [List.getElem?_map, hthread, Option.map_some, Option.some.injEq]
      cases thread with
      | waiting k => cases hwaiting
      | outside o => rfl
      | entering k => rfl
      | ready k pulsed => rfl

/-- A thread that has a turn is not in the wait set. -/
theorem isWaiting_of_turn {thread : Thread ω κ} {x : κ × Entry} (h : thread.turn = some x) :
    thread.isWaiting = false := by
  cases thread with
  | waiting k => cases h
  | outside o => rfl
  | entering k => rfl
  | ready k pulsed => rfl

/-- A signal does not reach a thread outside. -/
theorem Sent.outside_counts (h : Sent threads choice signal woken) (q : ω → Bool) :
    tally (Thread.outsideAs q) woken = tally (Thread.outsideAs q) threads := by
  cases h with
  | silent => rfl
  | nobody _ => rfl
  | @pulse k hchoice => exact tally_set (Thread.outsideAs q) (.ready k true) hchoice
  | pulseAll =>
      -- One thread after the other, whether it is woken or not.
      induction threads with
      | nil => rfl
      | cons thread threads ih =>
          rw [List.map_cons, tally_cons, tally_cons, ih]
          cases thread with
          | waiting k => rfl
          | outside o => rfl
          | entering k => rfl
          | ready k pulsed => rfl

/-- A thread that has a turn is counted among those in line, among the pulsed
    ones if its `Wait` returns `true`, and not among those that wait. -/
theorem counts_of_turn {thread : Thread ω κ}
    (h : thread.turn = some (k, entry)) (p : κ → Bool) :
    thread.waitingAs p = 0 ∧ thread.pulsedAs p = entry.pulsedAs p k ∧
      thread.inLineAs p = (p k).toNat := by
  cases thread with
  | waiting k => cases h
  | outside o => cases h
  | entering k =>
      cases h
      exact ⟨rfl, rfl, rfl⟩
  | ready k pulsed =>
      cases h
      cases pulsed with
      | false => exact ⟨rfl, rfl, rfl⟩
      | true => exact ⟨rfl, rfl, rfl⟩

/-- A thread that has a turn is not outside. -/
theorem outsideAs_of_turn {thread : Thread ω κ} {x : κ × Entry} (h : thread.turn = some x)
    (q : ω → Bool) : thread.outsideAs q = 0 := by
  cases thread with
  | outside o => cases h
  | waiting k => rfl
  | entering k => rfl
  | ready k pulsed => rfl

/-- The thread whose turn it is goes where its stretch ends, and the other
    threads only get the signal. -/
theorem Sent.turn (h : Sent s.threads choice stretch.signal woken) {th : Nat}
    {thread : Thread ω κ} (hthread : s.threads[th]? = some thread)
    (hturn : thread.turn = some (k, entry)) :
    Turn s choice k entry stretch woken
      { shared := stretch.shared, threads := woken.set th (stretch.next.thread k) } := by
  -- The signal has left the thread where it was, so setting it counts as it
  -- would have before.
  have hsame := h.getElem? hthread (isWaiting_of_turn hturn)
  refine ⟨rfl, h, fun p => ?_, fun p => ?_, fun p => ?_, fun q => ?_⟩
  · have hset := tally_set (Thread.waitingAs p) (stretch.next.thread k) hsame
    rw [(counts_of_turn hturn p).1] at hset
    exact hset.trans (congrArg _ (stretch.next.waitingAs_thread p k))
  · have hset := tally_set (Thread.pulsedAs p) (stretch.next.thread k) hsame
    rw [(counts_of_turn hturn p).2.1, stretch.next.pulsedAs_thread] at hset
    exact hset
  · have hset := tally_set (Thread.inLineAs p) (stretch.next.thread k) hsame
    rw [(counts_of_turn hturn p).2.2, stretch.next.inLineAs_thread] at hset
    exact hset
  · have hset := tally_set (Thread.outsideAs q) (stretch.next.thread k) hsame
    rw [outsideAs_of_turn hturn, h.outside_counts] at hset
    exact hset

/-- No thread is counted that a signal could wake. -/
theorem tally_waitingAs_of_nobody (hnobody : ∀ thread ∈ threads, thread.isWaiting = false)
    (p : κ → Bool) : tally (Thread.waitingAs p) threads = 0 := by
  by_contra hpos
  rcases (tally_pos_iff _ _).mp (Nat.pos_of_ne_zero hpos) with ⟨thread, hthread, hweight⟩
  have hwaiting := hnobody thread hthread
  cases thread with
  | waiting k => cases hwaiting
  | outside o => cases hweight
  | entering k => cases hweight
  | ready k pulsed => cases hweight

/-- A pulse wakes nobody, if nobody waits, or one thread. -/
theorem Sent.pulse_counts (h : Sent threads choice .pulse woken) :
    ((∀ p, tally (Thread.waitingAs p) threads = 0) ∧ woken = threads) ∨
      ∃ k, threads[choice]? = some (.waiting k) ∧ ∀ p : κ → Bool,
        tally (Thread.waitingAs p) woken + (p k).toNat = tally (Thread.waitingAs p) threads ∧
        tally (Thread.pulsedAs p) woken = tally (Thread.pulsedAs p) threads + (p k).toNat ∧
        tally (Thread.inLineAs p) woken = tally (Thread.inLineAs p) threads + (p k).toNat := by
  cases h with
  | nobody hnobody => exact Or.inl ⟨tally_waitingAs_of_nobody hnobody, rfl⟩
  | @pulse k hchoice =>
      exact Or.inr ⟨k, hchoice, fun p => ⟨tally_set (Thread.waitingAs p) _ hchoice,
        tally_set (Thread.pulsedAs p) (.ready k true) hchoice,
        tally_set (Thread.inLineAs p) (.ready k true) hchoice⟩⟩

/-- A pulse of all threads leaves the wait set empty. -/
theorem Sent.pulseAll_counts (h : Sent threads choice .pulseAll woken) (p : κ → Bool) :
    tally (Thread.waitingAs p) woken = 0 := by
  cases h with
  | pulseAll =>
      refine tally_waitingAs_of_nobody (fun thread hthread => ?_) p
      rcases List.mem_map.mp hthread with ⟨sleeper, -, rfl⟩
      cases sleeper with
      | waiting k => rfl
      | outside o => rfl
      | entering k => rfl
      | ready k pulsed => rfl

/-- A stretch without a signal that ends in `Wait`. -/
theorem Turn.silent_waits {shared : σ}
    (h : Turn s choice k entry { shared := shared, signal := .silent, next := .waits } woken t)
    (p : κ → Bool) :
    t.waiting p = s.waiting p + (p k).toNat ∧
    t.pulsed p + entry.pulsedAs p k = s.pulsed p ∧
    t.inLine p + (p k).toNat = s.inLine p := by
  rcases h with ⟨-, hsent, hwaiting, hpulsed, hinLine, -⟩
  cases hsent
  exact ⟨hwaiting p, hpulsed p, hinLine p⟩

/-- A stretch without a signal that leaves the block. -/
theorem Turn.silent_leaves {shared : σ} {o : ω}
    (h : Turn s choice k entry { shared := shared, signal := .silent, next := .leaves o } woken t)
    (p : κ → Bool) :
    t.waiting p = s.waiting p ∧ t.pulsed p + entry.pulsedAs p k = s.pulsed p := by
  rcases h with ⟨-, hsent, hwaiting, hpulsed, -, -⟩
  cases hsent
  exact ⟨hwaiting p, hpulsed p⟩

/-- A stretch with a pulse that leaves the block wakes nobody, if nobody waits,
    or the chosen thread. -/
theorem Turn.pulse_leaves {shared : σ} {o : ω}
    (h : Turn s choice k entry { shared := shared, signal := .pulse, next := .leaves o } woken t) :
    (∀ p, s.waiting p = 0 ∧ t.waiting p = 0 ∧ t.pulsed p + entry.pulsedAs p k = s.pulsed p ∧
      t.inLine p + (p k).toNat = s.inLine p) ∨
    ∃ k', s.threads[choice]? = some (.waiting k') ∧ ∀ p : κ → Bool,
      t.waiting p + (p k').toNat = s.waiting p ∧
      t.pulsed p + entry.pulsedAs p k = s.pulsed p + (p k').toNat ∧
      t.inLine p + (p k).toNat = s.inLine p + (p k').toNat := by
  rcases h with ⟨-, hsent, hwaiting, hpulsed, hinLine, -⟩
  rcases hsent.pulse_counts with ⟨hnone, rfl⟩ | ⟨k', hchoice, hcounts⟩
  · exact Or.inl (fun p => ⟨hnone p, (hwaiting p).trans (hnone p), hpulsed p, hinLine p⟩)
  · refine Or.inr ⟨k', hchoice, fun p => ?_⟩
    rcases hcounts p with ⟨hw, hp, hl⟩
    refine ⟨?_, (hpulsed p).trans hp, (hinLine p).trans hl⟩
    rw [hwaiting]
    exact hw

/-- A stretch that pulses all threads and leaves the block. -/
theorem Turn.pulseAll_leaves {shared : σ} {o : ω}
    (h : Turn s choice k entry { shared := shared, signal := .pulseAll, next := .leaves o } woken t)
    (p : κ → Bool) : t.waiting p = 0 := by
  rw [h.waiting, h.sent.pulseAll_counts]
  rfl

/-- A thread that comes to its turn by a pulse is one thread. -/
theorem Entry.pulsedAs_le_one (p : κ → Bool) (k : κ) (entry : Entry) : entry.pulsedAs p k ≤ 1 := by
  unfold Entry.pulsedAs
  split
  · exact Bool.toNat_le (p k)
  · exact Nat.zero_le 1

/-- A thread that has been pulsed is in line. -/
theorem pulsed_le_inLine (s : State σ ω κ) (p : κ → Bool) : s.pulsed p ≤ s.inLine p := by
  refine tally_mono (fun thread => ?_) s.threads
  cases thread with
  | outside o => exact Nat.le_refl 0
  | entering k => exact Nat.zero_le _
  | waiting k => exact Nat.le_refl 0
  | ready k pulsed =>
      cases pulsed with
      | false => exact Nat.zero_le _
      | true => exact Nat.le_refl _

/-- Every signal can be sent. -/
theorem exists_send (signal : Signal) (threads : List (Thread ω κ)) :
    ∃ choice woken, signal.send choice threads = some woken := by
  cases signal with
  | silent => exact ⟨0, threads, rfl⟩
  | pulseAll => exact ⟨0, _, rfl⟩
  | pulse =>
      by_cases hany : threads.any Thread.isWaiting = true
      · rcases List.any_eq_true.mp hany with ⟨thread, hmem, hwaiting⟩
        rcases List.getElem?_of_mem hmem with ⟨choice, hchoice⟩
        cases thread with
        | waiting k =>
            refine ⟨choice, threads.set choice (.ready k true), ?_⟩
            simp only [Signal.send, hchoice]
        | outside o => cases hwaiting
        | entering k => cases hwaiting
        | ready k pulsed => cases hwaiting
      · refine ⟨threads.length, threads, ?_⟩
        simp only [Signal.send, List.getElem?_length, hany, Bool.false_eq_true, if_false]

/-- A thread that has a turn can take it. -/
theorem step_run {th : Nat} {thread : Thread ω κ} (hthread : s.threads[th]? = some thread)
    (hturn : thread.turn = some (k, entry))
    (hsend : (P.block k entry s.shared).signal.send choice s.threads = some woken) :
    ∃ t, step P s (.run th choice) = some t ∧
      Turn s choice k entry (P.block k entry s.shared) woken t := by
  refine ⟨_, ?_, (send_sent hsend).turn hthread hturn⟩
  simp only [step, hthread, Option.bind_some, hturn, hsend, Option.map_some]

theorem eq_true_of_toNat_pos {b : Bool} (h : 0 < b.toNat) : b = true := by
  cases b with
  | false => cases h
  | true => rfl

/-- If threads are in line in a call of some kind, one of them has a turn. -/
theorem exists_turn {p : κ → Bool} (h : 0 < s.inLine p) :
    ∃ (th : Nat) (thread : Thread ω κ) (k : κ) (entry : Entry),
      s.threads[th]? = some thread ∧ thread.turn = some (k, entry) ∧ p k = true := by
  rcases (tally_pos_iff _ _).mp h with ⟨thread, hmem, hweight⟩
  rcases List.getElem?_of_mem hmem with ⟨th, hthread⟩
  cases thread with
  | outside place => cases hweight
  | waiting k => cases hweight
  | entering k => exact ⟨th, _, k, .enters, hthread, rfl, eq_true_of_toNat_pos hweight⟩
  | ready k pulsed => exact ⟨th, _, k, .resumes pulsed, hthread, rfl, eq_true_of_toNat_pos hweight⟩

/-- If threads wait in a call of some kind, one of them does. -/
theorem exists_waiting {p : κ → Bool} (h : 0 < s.waiting p) :
    ∃ (th : Nat) (k : κ), s.threads[th]? = some (.waiting k) ∧ p k = true := by
  rcases (tally_pos_iff _ _).mp h with ⟨thread, hmem, hweight⟩
  rcases List.getElem?_of_mem hmem with ⟨th, hthread⟩
  cases thread with
  | outside place => cases hweight
  | entering k => cases hweight
  | waiting k => exact ⟨th, k, hthread, eq_true_of_toNat_pos hweight⟩
  | ready k pulsed => cases hweight

/-- An invariant of the shared data holds on every run, if the stretches and
    the steps outside keep it. -/
theorem shared_invariant {shared : σ} {o : ω} (I : σ → Prop) (hinit : I shared)
    (hblock : ∀ k entry shared, I shared → I (P.block k entry shared).shared)
    (hact : ∀ o o' shared shared', I shared → P.act o shared = some (shared', o') → I shared')
    (h : (system P shared o).Reachable s) : I s.shared := by
  refine h.invariant (fun s => I s.shared) (fun s hs => hs.1 ▸ hinit) (fun s a t hs hst => ?_)
  cases step_moves hst with
  | call _ _ => exact hs
  | run _ _ _ => exact hblock _ _ _ hs
  | expire _ _ => exact hs
  | act _ hstep => exact hact _ _ _ _ hs hstep

end Steps

end Monitor

end BlogSample
