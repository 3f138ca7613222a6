import BlogSample.Theory.Tally
import BlogSample.Theory.Transition

/-!
# Readers Asleep in a Driver

The driver of `wait-queue-lab.c`. A timer calls back once in a period and turns
a flag on and off in turn; when it turns the flag off it wakes all readers. A
reader looks at the flag and goes to sleep if it is on.

Between the look and the sleep the flag may have been turned off already, so
that the wake-up comes too early; and a reader that is woken turns the flag
off itself, maybe after the timer has turned it on again, which costs the
others a wake-up. Nobody sleeps forever for all that: each reader that is on
its way out turns the flag off once.

The kernel wakes those readers that have said they are to be woken
(`TASK_INTERRUPTIBLE`), whether they are asleep yet or not, and a signal does
the same to one of them.

## Main definitions

* `Place`, `Reader`, `Driver`: The state.
* `timerCallback`, `wakeUp`, `timerRead`: The functions of the driver.
* `driver`: The runs of the timer, the readers and the signals.
* `slow`: The readers that are still to turn the flag off.
* `budget`: How many calls of the timer a reader may sleep through.

## Theorems

* `budget_step`: What a step uses up.
* `sleeps_at_most`: How many calls of the timer a reader sleeps through.
-/

namespace BlogSample

namespace WaitQueueLab

open Transition

/-- `#define RUNNING 1`. -/
def RUNNING : Nat := 1

/-- `#define STOP 0`. -/
def STOP : Nat := 0

/-- The errno that a call returns with a minus to be made again. -/
def ERESTARTSYS : Int := 512

/-- Where a reader is in `timer_read`, with what it read of the flag: outside,
    about to read the flag, to look at it, to join the queue, to say that it is
    to be woken, and to give up the processor; asleep; about to look for
    signals, to turn the flag off, to hand out what it read, and to return
    with an error. -/
inductive Place
  | outside
  | starting
  | checking (flag : Nat)
  | joining (flag : Nat)
  | joined (flag : Nat)
  | dozing (flag : Nat)
  | asleep (flag : Nat)
  | woken (flag : Nat)
  | stopping (flag : Nat)
  | copying (flag : Nat)
  | failing
  deriving DecidableEq

/-- A reader, and whether a signal is pending for it. -/
structure Reader where
  place : Place
  pending : Bool
  deriving DecidableEq

/-- Where the timer is: between two calls, or, after it has found the flag on,
    about to turn it off, or to wake the readers. -/
inductive Phase
  | idle
  | stopping
  | waking
  deriving DecidableEq

/-- The flag, the global `ret`, the timer, the readers, and what their calls
    have returned, with the byte handed out. -/
structure Driver where
  flag : Nat
  ret : Int
  phase : Phase
  readers : List Reader
  returned : List (Nat × Int × Option Nat)

/-- A reader that is to be woken is. -/
def Reader.wake (r : Reader) : Reader :=
  match r.place with
  | .dozing flag => ⟨.woken flag, r.pending⟩
  | .asleep flag => ⟨.woken flag, r.pending⟩
  | _ => r

/-- `wake_up_interruptible`. -/
def wakeUp (readers : List Reader) : List Reader :=
  readers.map Reader.wake

/-- `GetIntrTimerCallback`, when it is called, and each time it goes on. -/
def timerCallback (d : Driver) : Driver :=
  match d.phase with
  | .idle => if d.flag = STOP then { d with flag := RUNNING } else { d with phase := .stopping }
  | .stopping => { d with flag := STOP, phase := .waking }
  | .waking => { d with phase := .idle, readers := wakeUp d.readers }

/-- A reader goes on to another place. -/
def Driver.move (d : Driver) (i : Nat) (r : Reader) (place : Place) : Driver :=
  { d with readers := d.readers.set i ⟨place, r.pending⟩ }

/-- A call returns, and the signals for its reader are handled. -/
def Driver.finish (d : Driver) (i : Nat) (result : Int) (byte : Option Nat) : Driver :=
  { d with
    readers := d.readers.set i ⟨.outside, false⟩
    returned := d.returned ++ [(i, result, byte)] }

/-- One step of `timer_read` in a reader. `copy_to_user` leaves `rest` bytes
    uncopied. -/
def timerRead (d : Driver) (i : Nat) (rest : Int) (r : Reader) : Option Driver :=
  match r.place with
  | .outside => some (d.move i r .starting)
  | .starting => some (d.move i r (.checking d.flag))
  | .checking flag =>
      if d.flag = STOP then some (d.finish i (-ERESTARTSYS) none)
      else some (d.move i r (.joining flag))
  | .joining flag => some (d.move i r (.joined flag))
  | .joined flag => some (d.move i r (.dozing flag))
  -- With a signal pending `schedule` comes back at once.
  | .dozing flag => some (d.move i r (if r.pending = true then .woken flag else .asleep flag))
  | .asleep _ => none
  | .woken flag =>
      if r.pending = true then some { d.move i r .failing with ret := -ERESTARTSYS }
      else some (d.move i r (.stopping flag))
  | .stopping flag => some { d.move i r (.copying flag) with flag := STOP }
  | .copying flag => some ({ d with ret := rest }.finish i 0 (some flag))
  | .failing => some (d.finish i d.ret none)

/-- A signal for a reader. -/
def signal (d : Driver) (i : Nat) (r : Reader) : Driver :=
  { d with readers := d.readers.set i { r.wake with pending := true } }

/-- The timer is called, it goes on with a call, a reader takes a step, or a
    signal arrives. -/
inductive Action
  | call
  | goOn
  | read (i : Nat) (rest : Int)
  | signal (i : Nat)

/-- One step. -/
def step (d : Driver) : Action → Option Driver
  | .call => if d.phase = .idle then some (timerCallback d) else none
  | .goOn => if d.phase = .idle then none else some (timerCallback d)
  | .read i rest => (d.readers[i]?).bind (timerRead d i rest)
  | .signal i => (d.readers[i]?).map (WaitQueueLab.signal d i)

/-- `driver_entry` has run, and no reader has called. -/
def Initial (d : Driver) : Prop :=
  d.flag = STOP ∧ d.phase = .idle ∧ ∀ r ∈ d.readers, r = ⟨.outside, false⟩

/-- The runs of the driver. -/
def driver : System Driver Action :=
  System.ofFn Initial step

/-- A reader is asleep. -/
def Asleep (i : Nat) (d : Driver) : Prop :=
  ∃ flag pending, d.readers[i]? = some ⟨.asleep flag, pending⟩

/-- A reader is on its way to turning the flag off. -/
def turnsOff (r : Reader) : Nat :=
  match r.place with
  | .woken _ => if r.pending = true then 0 else 1
  | .stopping _ => 1
  | _ => 0

/-- How many readers are on their way to turning the flag off. -/
def slow (d : Driver) : Nat :=
  tally turnsOff d.readers

/-- How many calls of the timer it takes to wake a reader that is asleep. -/
def budget (d : Driver) : Nat :=
  match d.phase with
  | .idle => (if d.flag = STOP then 2 else 1) + slow d
  | _ => 0

/-- An action calls the timer. -/
def isCall : Action → Nat
  | .call => 1
  | _ => 0

/-- What a step of a reader does: the flag stays, and the reader is no slower
    than before, or the flag is turned off, and the reader is no longer on its
    way to that. -/
theorem timerRead_cases {d d' : Driver} {i : Nat} {rest : Int} {r : Reader}
    (h : timerRead d i rest r = some d') : d'.phase = d.phase ∧ ∃ r',
      d'.readers = d.readers.set i r' ∧
        ((d'.flag = d.flag ∧ turnsOff r' ≤ turnsOff r) ∨
          (d'.flag = STOP ∧ turnsOff r' < turnsOff r)) := by
  rcases r with ⟨place, pending⟩
  cases place with
  | outside =>
      cases h
      exact ⟨rfl, _, rfl, .inl ⟨rfl, Nat.zero_le _⟩⟩
  | starting =>
      cases h
      exact ⟨rfl, _, rfl, .inl ⟨rfl, Nat.zero_le _⟩⟩
  | checking flag =>
      by_cases hflag : d.flag = STOP
      · simp only [timerRead, if_pos hflag, Option.some.injEq] at h
        subst h
        exact ⟨rfl, _, rfl, .inl ⟨rfl, Nat.zero_le _⟩⟩
      · simp only [timerRead, if_neg hflag, Option.some.injEq] at h
        subst h
        exact ⟨rfl, _, rfl, .inl ⟨rfl, Nat.zero_le _⟩⟩
  | joining flag =>
      cases h
      exact ⟨rfl, _, rfl, .inl ⟨rfl, Nat.zero_le _⟩⟩
  | joined flag =>
      cases h
      exact ⟨rfl, _, rfl, .inl ⟨rfl, Nat.zero_le _⟩⟩
  | dozing flag =>
      -- Whoever comes back at once has a signal, and will not turn the flag off.
      cases h
      refine ⟨rfl, _, rfl, .inl ⟨rfl, ?_⟩⟩
      cases pending with
      | false => exact Nat.zero_le _
      | true => exact Nat.zero_le _
  | asleep flag => cases h
  | woken flag =>
      cases pending with
      | false =>
          cases h
          exact ⟨rfl, _, rfl, .inl ⟨rfl, Nat.le_refl 1⟩⟩
      | true =>
          cases h
          exact ⟨rfl, _, rfl, .inl ⟨rfl, Nat.zero_le _⟩⟩
  | stopping flag =>
      cases h
      exact ⟨rfl, _, rfl, .inr ⟨rfl, Nat.zero_lt_one⟩⟩
  | copying flag =>
      cases h
      exact ⟨rfl, _, rfl, .inl ⟨rfl, Nat.zero_le _⟩⟩
  | failing =>
      cases h
      exact ⟨rfl, _, rfl, .inl ⟨rfl, Nat.zero_le _⟩⟩

/-- A step of a reader does not lengthen the sleep of another one. -/
theorem timerRead_budget {d d' : Driver} {i : Nat} {rest : Int} {r : Reader}
    (hi : d.readers[i]? = some r) (h : timerRead d i rest r = some d') : budget d' ≤ budget d := by
  rcases timerRead_cases h with ⟨hphase, r', hreaders, hcase⟩
  have hset := tally_set turnsOff r' hi
  have hslow : slow d' + turnsOff r = slow d + turnsOff r' := by
    unfold slow
    rw [hreaders]
    exact hset
  unfold budget
  rw [hphase]
  cases d.phase with
  | idle =>
      simp only
      rcases hcase with ⟨hflag, hle⟩ | ⟨hflag, hlt⟩
      · rw [hflag]
        omega
      · rw [hflag, if_pos rfl]
        by_cases hstop : d.flag = STOP
        · rw [if_pos hstop]
          omega
        · rw [if_neg hstop]
          omega
  | stopping => exact Nat.le_refl 0
  | waking => exact Nat.le_refl 0

/-- A reader that a signal arrives for does not turn the flag off, unless it
    was about to. -/
theorem turnsOff_signal (r : Reader) : turnsOff { r.wake with pending := true } ≤ turnsOff r := by
  rcases r with ⟨place, pending⟩
  cases place with
  | stopping flag => exact Nat.le_refl 1
  | outside => exact Nat.zero_le _
  | starting => exact Nat.zero_le _
  | checking flag => exact Nat.zero_le _
  | joining flag => exact Nat.zero_le _
  | joined flag => exact Nat.zero_le _
  | dozing flag => exact Nat.zero_le _
  | asleep flag => exact Nat.zero_le _
  | woken flag => exact Nat.zero_le _
  | copying flag => exact Nat.zero_le _
  | failing => exact Nat.zero_le _

/-- When the readers are woken, nobody is left asleep. -/
theorem not_asleep_wakeUp {d d' : Driver} (h : d'.readers = wakeUp d.readers) (i : Nat) :
    ¬ Asleep i d' := by
  rintro ⟨flag, pending, hi⟩
  rw [h, wakeUp, List.getElem?_map, Option.map_eq_some_iff] at hi
  rcases hi with ⟨⟨place, pending'⟩, -, hwake⟩
  cases place <;> cases hwake

/-- What a step uses up, while a reader is asleep. -/
theorem budget_step {d d' : Driver} {a : Action} {i : Nat} (h : step d a = some d')
    (hasleep : Asleep i d') : isCall a + budget d' ≤ budget d := by
  cases a with
  | call =>
      unfold step at h
      -- A call begins when the one before it is over.
      by_cases hidle : d.phase = .idle
      · rw [if_pos hidle] at h
        cases h
        unfold timerCallback budget isCall
        simp only [hidle]
        by_cases hstop : d.flag = STOP
        -- The flag is turned on, so the next call wakes the readers.
        · simp only [if_pos hstop]
          rw [if_neg (by decide : ¬ RUNNING = STOP)]
          change 1 + (1 + slow d) ≤ 2 + slow d
          omega
        · simp only [if_neg hstop]
          omega
      · rw [if_neg hidle] at h
        cases h
  | goOn =>
      unfold step at h
      cases hphase : d.phase with
      | idle =>
          rw [hphase, if_pos rfl] at h
          cases h
      -- Behind the branch that stops, nothing is to be paid.
      | stopping =>
          rw [hphase, if_neg nofun] at h
          cases h
          unfold timerCallback budget
          simp only [hphase]
          exact Nat.le_refl 0
      -- All readers are woken, against what is assumed.
      | waking =>
          rw [hphase, if_neg nofun] at h
          cases h
          refine absurd hasleep (not_asleep_wakeUp (d := d) ?_ i)
          unfold timerCallback
          simp only [hphase]
  | read j rest =>
      -- A reader may turn the flag off. It has paid for it when it was slow.
      rcases Option.bind_eq_some_iff.mp h with ⟨r, hj, h⟩
      exact Nat.le_trans (Nat.le_of_eq (Nat.zero_add _)) (timerRead_budget hj h)
  | signal j =>
      rcases Option.map_eq_some_iff.mp h with ⟨r, hj, rfl⟩
      -- A signal only ends a wait, and ended waits turn nothing off.
      have hset := tally_set turnsOff { r.wake with pending := true } hj
      have hle := turnsOff_signal r
      have hslow : slow (signal d j r) ≤ slow d := by
        change tally turnsOff (d.readers.set j { r.wake with pending := true }) ≤
          tally turnsOff d.readers
        omega
      change 0 + budget (signal d j r) ≤ budget d
      unfold budget
      change 0 + (match d.phase with
        | .idle => (if d.flag = STOP then 2 else 1) + slow (signal d j r)
        | _ => 0) ≤ _
      cases d.phase with
      | idle =>
          simp only
          omega
      | stopping => exact Nat.le_refl 0
      | waking => exact Nat.le_refl 0

/-- How often the timer is called in a run. -/
def calls (steps : List (Driver × Action)) : Nat :=
  tally (fun p => isCall p.2) steps

/-- What a run uses up, while a reader is asleep. -/
theorem calls_add_budget_le {i : Nat} {d d' : Driver} {steps : List (Driver × Action)}
    (h : driver.Run d steps d') (hall : ∀ p ∈ steps, Asleep i p.1) (hasleep : Asleep i d') :
    calls steps + budget d' ≤ budget d := by
  unfold calls
  induction h with
  | nil => exact Nat.le_of_eq (Nat.zero_add _)
  | snoc steps u a t _ hstep ih =>
      have hu := hall (u, a) (List.mem_append_right _ (List.mem_singleton_self _))
      have hbefore := ih (fun p hp => hall p (List.mem_append_left _ hp)) hu
      have hlast := budget_step hstep hasleep
      rw [tally_append, tally_cons, tally_nil]
      change tally _ steps + (isCall a + 0) + budget t ≤ budget d
      omega

/-- As long as a reader is asleep, the timer is called twice at most, and once
    more for each reader that was on its way to turning the flag off when it
    fell asleep. While no call is under way it is one less. -/
theorem sleeps_at_most {i : Nat} {d d' : Driver} {steps : List (Driver × Action)}
    (h : driver.Run d steps d') (hall : ∀ p ∈ steps, Asleep i p.1) (hasleep : Asleep i d') :
    calls steps ≤ 2 + slow d ∧ (d'.phase = .idle → calls steps ≤ 1 + slow d) := by
  have hle := calls_add_budget_le h hall hasleep
  -- Two calls turn the flag on and wake everybody, and each slow reader can turn it
  -- off once.
  have hbudget : budget d ≤ 2 + slow d := by
    unfold budget
    cases d.phase with
    | idle =>
        simp only
        by_cases hstop : d.flag = STOP
        · exact Nat.le_of_eq (congrArg (· + slow d) (if_pos hstop))
        · rw [if_neg hstop]
          omega
    | stopping => exact Nat.zero_le _
    | waking => exact Nat.zero_le _
  refine ⟨by omega, fun hidle => ?_⟩
  have hone : 1 ≤ budget d' := by
    unfold budget
    rw [hidle]
    simp only
    by_cases hstop : d'.flag = STOP
    · rw [if_pos hstop]
      omega
    · rw [if_neg hstop]
      omega
  omega

/-- The flag is on, a reader has gone to sleep, and another one that was woken
    before is about to turn the flag off. -/
def overtaken : Driver :=
  ⟨RUNNING, 0, .idle, [⟨.asleep RUNNING, false⟩, ⟨.stopping RUNNING, false⟩], []⟩

/-- The other reader turns the flag off, and the timer turns it on again
    instead of waking the first one. -/
theorem sleeps_at_most_overtaken : ∃ steps d, driver.Run overtaken steps d ∧ Asleep 0 d ∧
    calls steps = 1 ∧ calls steps ≤ 2 + slow overtaken := by
  let d₁ : Driver :=
    ⟨STOP, 0, .idle, [⟨.asleep RUNNING, false⟩, ⟨.copying RUNNING, false⟩], []⟩
  let d₂ : Driver :=
    ⟨RUNNING, 0, .idle, [⟨.asleep RUNNING, false⟩, ⟨.copying RUNNING, false⟩], []⟩
  have h₁ : driver.Run overtaken [(overtaken, Action.read 1 0)] d₁ :=
    .snoc [] overtaken (Action.read 1 0) d₁ .nil rfl
  have h₂ : driver.Run overtaken ([(overtaken, Action.read 1 0)] ++ [(d₁, Action.call)]) d₂ :=
    .snoc _ d₁ Action.call d₂ h₁ rfl
  have hall : ∀ p ∈ [(overtaken, Action.read 1 0)] ++ [(d₁, Action.call)], Asleep 0 p.1 := by
    intro p hp
    rcases List.mem_cons.mp hp with rfl | hp
    · exact ⟨RUNNING, false, rfl⟩
    · rw [List.mem_singleton.mp hp]
      exact ⟨RUNNING, false, rfl⟩
  have hasleep : Asleep 0 d₂ := ⟨RUNNING, false, rfl⟩
  exact ⟨_, d₂, h₂, hasleep, rfl, (sleeps_at_most h₂ hall hasleep).1⟩

end WaitQueueLab

end BlogSample
