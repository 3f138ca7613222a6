import BlogSample.Int32
import BlogSample.Theory.Tally
import BlogSample.Theory.Transition

/-!
# A Timer under Commands

The driver of `timer-lab.c`, from where `driver_entry` has started its timer. The
timer calls back and is set again by the callback, and three commands of any
number of processes set it or take it away meanwhile. Nothing is locked.

Whether the timer will call back is for all that decided by the last command
alone, since `del_timer_sync` waits for a callback. It calls back once in a period,
since the callback sets the timer after whatever has come in between, but for one
thing: `TIMER_FREQ` is worked out before `mod_timer` is called, so that a command
that is held up in between sets the timer to a time of the past. What goes wrong is
`OPEN_CMD`, as `add_timer` is not for a timer that is pending, and the end of the
module, as `del_timer` does not wait for a callback.

What `copy_from_user` makes of the period, if it fails as well, is part of the
step: its result is compared as an unsigned number, so the command goes on in
any case.

## Main definitions

* `Callback`, `Driver`: The state.
* `callback`, `timerIoctl`, `step`: What the timer and the commands do.
* `driver`: The runs.
* `Alive`: The timer will call back.
* `armed`, `called`: What the actions of a run make of the timer.
* `callbacks`, `lates`: How often it calls back, and how many commands were held up.
* `Moves`: What a step does.
* `Followed`, `Paced`, `Gone`: The invariants.

## Theorems

* `step_moves`: A step is one of these.
* `followed_step`, `paced_step`, `gone_step`: The invariants are kept.
* `actions_decide`: What the actions of a run decide.
* `callbacks_le`: How often the timer calls back.
* `exit_alive_iff`: What is left of the timer when the module goes.
-/

namespace BlogSample

namespace TimerLab

open DotNet Transition

/-- Where `GetIntrTimerCallback` is: not called; before the argument of `mod_timer`; with
    that, before the call; or after it. -/
inductive Callback
  | idle
  | counted
  | timed (expires : Nat)
  | rearmed
  deriving DecidableEq

/-- The callback has not set the timer yet. -/
def Callback.Due : Callback → Prop
  | .counted => True
  | .timed _ => True
  | _ => False

/-- The clock, the timer, `dev_context`, where the callback is, how many files are
    open, how many `SET_PERIOD_CMD` have copied the period and no more, the times that
    the others of them have worked out and not set the timer to yet, whether
    `driver_exit` has deleted the timer, and whether `add_timer` has met a timer that
    was pending. -/
structure Driver where
  jiffies : Nat
  pending : Bool
  expires : Nat
  period : Int
  cnt : Int
  place : Callback
  opened : Nat
  setting : Nat
  times : List Nat
  exiting : Bool
  crashed : Bool

/-- Time passes, the timer calls back, the callback works out a time or goes on, a file
    is opened or released, a process sends a command, of which one works out a time and
    then sets the timer, and the module goes. -/
inductive Action
  | tick
  | expire
  | evaluate
  | goOn
  | open
  | release
  | openCmd
  | closeCmd
  | copyPeriod (period : Int)
  | evaluatePeriod
  | setPeriodCmd (k : Nat)
  | exit
  deriving DecidableEq

section

variable (msecsToJiffies : Int → Nat)

/-- `TIMER_FREQ(period)`. -/
def Driver.timerFreq (s : Driver) : Nat :=
  s.jiffies + msecsToJiffies s.period

/-- `mod_timer(&timer, expires)`. -/
def Driver.modTimer (s : Driver) (expires : Nat) : Driver :=
  { s with pending := true, expires := expires }

/-- `GetIntrTimerCallback`, when it is called, and each time it goes on. -/
def callback (s : Driver) : Driver :=
  match s.place with
  | .idle => { s with pending := false, cnt := wrap (s.cnt + 1), place := .counted }
  | .counted => { s with place := .timed (s.timerFreq msecsToJiffies) }
  | .timed expires => { s.modTimer expires with place := .rearmed }
  | .rearmed => { s with place := .idle }

/-- `timer_iotcl`, of which the last two steps for `SET_PERIOD_CMD` come on their own.
    `add_timer` on a timer that is pending is a bug, and `del_timer_sync` waits for the
    callback. -/
def timerIoctl (s : Driver) : Action → Option Driver
  | .openCmd =>
      if s.pending = true then some { s with crashed := true }
      else some { s with pending := true }
  | .closeCmd => if s.place = .idle then some { s with pending := false } else none
  | .copyPeriod period => some { s with period := period, setting := s.setting + 1 }
  | _ => none

/-- One step. -/
def step (s : Driver) (a : Action) : Option Driver :=
  if s.crashed = true then none
  else
    match a with
    | .tick => some { s with jiffies := s.jiffies + 1 }
    | .expire =>
        if s.pending = true ∧ s.expires ≤ s.jiffies ∧ s.place = .idle then
          some (callback msecsToJiffies s)
        else none
    | .evaluate => if s.place = .counted then some (callback msecsToJiffies s) else none
    | .goOn =>
        match s.place with
        | .timed _ => some (callback msecsToJiffies s)
        | .rearmed => some (callback msecsToJiffies s)
        | _ => none
    | .open => if s.exiting = true then none else some { s with opened := s.opened + 1 }
    | .release => if s.opened = 0 then none else some { s with opened := s.opened - 1 }
    | .evaluatePeriod =>
        if s.setting = 0 then none
        else some { s with
          setting := s.setting - 1
          times := s.times ++ [s.timerFreq msecsToJiffies] }
    | .setPeriodCmd k =>
        match s.times[k]? with
        | none => none
        | some expires => some { s.modTimer expires with times := s.times.eraseIdx k }
    -- `driver_exit`, which no file and no command is in the way of.
    | .exit =>
        if s.opened = 0 ∧ s.setting = 0 ∧ s.times = [] ∧ s.exiting = false then
          some { s with pending := false, exiting := true }
        else none
    | cmd => if s.opened = 0 then none else timerIoctl s cmd

/-- `driver_entry` has just returned. -/
def start (jiffies : Nat) : Driver where
  jiffies := jiffies
  pending := true
  expires := jiffies + msecsToJiffies 1000
  period := 1000
  cnt := 0
  place := .idle
  opened := 0
  setting := 0
  times := []
  exiting := false
  crashed := false

/-- The runs from there. -/
def driver : System Driver Action :=
  System.ofFn (fun s => ∃ jiffies, s = start msecsToJiffies jiffies) (step msecsToJiffies)

end

/-- The timer is pending, or the callback will set it. -/
def Alive (s : Driver) : Prop :=
  s.pending = true ∨ s.place.Due

/-- What an action makes of the timer. -/
def rearm (armed : Bool) : Action → Bool
  | .openCmd => true
  | .setPeriodCmd _ => true
  | .closeCmd => false
  | _ => armed

/-- What the actions of a run make of the timer that `driver_entry` has started. -/
def armed (steps : List (Driver × Action)) : Bool :=
  steps.foldl (fun armed p => rearm armed p.2) true

/-- Whether the timer has called back and nothing has set it since. -/
def call (called : Bool) : Action → Bool
  | .expire => true
  | .goOn => false
  | .openCmd => false
  | .setPeriodCmd _ => false
  | _ => called

/-- The timer has called back in a run, and neither the callback nor a command has set it
    since. -/
def called (steps : List (Driver × Action)) : Bool :=
  steps.foldl (fun called p => call called p.2) false

/-- The timer calls back. -/
def isExpire : Action → Nat
  | .expire => 1
  | _ => 0

/-- How often the timer has called back. -/
def callbacks (steps : List (Driver × Action)) : Nat :=
  tally (fun p => isExpire p.2) steps

/-- A command sets the timer to a time that is less than `w` away, since it was held up
    after it had worked it out. -/
def isLate (w : Nat) (s : Driver) : Action → Nat
  | .setPeriodCmd k => if s.times[k]?.any (fun expires => expires < s.jiffies + w) then 1 else 0
  | _ => 0

/-- How many commands of a run were held up. -/
def lates (w : Nat) (steps : List (Driver × Action)) : Nat :=
  tally (fun p => isLate w p.1 p.2) steps

theorem armed_concat (steps : List (Driver × Action)) (s : Driver) (a : Action) :
    armed (steps ++ [(s, a)]) = rearm (armed steps) a := by
  rw [armed, List.foldl_append]
  rfl

theorem called_concat (steps : List (Driver × Action)) (s : Driver) (a : Action) :
    called (steps ++ [(s, a)]) = call (called steps) a := by
  rw [called, List.foldl_append]
  rfl

theorem callbacks_concat (steps : List (Driver × Action)) (s : Driver) (a : Action) :
    callbacks (steps ++ [(s, a)]) = callbacks steps + isExpire a := by
  rw [callbacks, tally_append, tally_cons, tally_nil]
  rfl

theorem lates_concat (w : Nat) (steps : List (Driver × Action)) (s : Driver) (a : Action) :
    lates w (steps ++ [(s, a)]) = lates w steps + isLate w s a := by
  rw [lates, tally_append, tally_cons, tally_nil]
  rfl

variable {ms : Int → Nat}

/-- What a step does. -/
inductive Moves (ms : Int → Nat) (s : Driver) : Action → Driver → Prop
  | tick : Moves ms s .tick { s with jiffies := s.jiffies + 1 }
  | expire : s.pending = true → s.expires ≤ s.jiffies → s.place = .idle → Moves ms s .expire
      { s with pending := false, cnt := wrap (s.cnt + 1), place := .counted }
  | evaluate : s.place = .counted →
      Moves ms s .evaluate { s with place := .timed (s.timerFreq ms) }
  | rearm (expires : Nat) : s.place = .timed expires →
      Moves ms s .goOn { s.modTimer expires with place := .rearmed }
  | finish : s.place = .rearmed → Moves ms s .goOn { s with place := .idle }
  | opens : s.exiting = false → Moves ms s .open { s with opened := s.opened + 1 }
  | release : s.opened ≠ 0 → Moves ms s .release { s with opened := s.opened - 1 }
  | bug : s.opened ≠ 0 → s.pending = true → Moves ms s .openCmd { s with crashed := true }
  | addTimer : s.opened ≠ 0 → s.pending = false → Moves ms s .openCmd { s with pending := true }
  | delTimerSync : s.opened ≠ 0 → s.place = .idle →
      Moves ms s .closeCmd { s with pending := false }
  | copy (period : Int) : s.opened ≠ 0 → Moves ms s (.copyPeriod period)
      { s with period := period, setting := s.setting + 1 }
  | evaluatePeriod : s.setting ≠ 0 → Moves ms s .evaluatePeriod
      { s with setting := s.setting - 1, times := s.times ++ [s.timerFreq ms] }
  | setPeriod (k expires : Nat) : s.times[k]? = some expires → Moves ms s (.setPeriodCmd k)
      { s.modTimer expires with times := s.times.eraseIdx k }
  | exit : s.opened = 0 → s.setting = 0 → s.times = [] → s.exiting = false →
      Moves ms s .exit { s with pending := false, exiting := true }

/-- A step is one of these, from where nothing has gone wrong. -/
theorem step_moves {s t : Driver} {a : Action} (h : step ms s a = some t) :
    s.crashed = false ∧ Moves ms s a t := by
  unfold step at h
  -- After a crash there is no step.
  rcases Option.ite_none_left_eq_some.mp h with ⟨hcrash, h⟩
  refine ⟨Bool.eq_false_iff.mpr hcrash, ?_⟩
  cases a with
  | tick =>
      cases h
      exact .tick
  | expire =>
      rcases Option.ite_none_right_eq_some.mp h with ⟨⟨hpending, hexpires, hplace⟩, heq⟩
      rw [callback, hplace] at heq
      cases heq
      exact .expire hpending hexpires hplace
  | evaluate =>
      rcases Option.ite_none_right_eq_some.mp h with ⟨hplace, heq⟩
      rw [callback, hplace] at heq
      cases heq
      exact .evaluate hplace
  | goOn =>
      -- The callback goes on where it is, and not while it has still to evaluate
      -- `jiffies + timerFreq()`, which is a step of its own.
      simp only [callback] at h
      cases hplace : s.place with
      | idle =>
          rw [hplace] at h
          cases h
      | counted =>
          rw [hplace] at h
          cases h
      | timed expires =>
          rw [hplace] at h
          cases h
          exact .rearm expires hplace
      | rearmed =>
          rw [hplace] at h
          cases h
          exact .finish hplace
  | «open» =>
      rcases Option.ite_none_left_eq_some.mp h with ⟨hexit, heq⟩
      cases heq
      exact .opens (Bool.eq_false_iff.mpr hexit)
  | release =>
      rcases Option.ite_none_left_eq_some.mp h with ⟨hopened, heq⟩
      cases heq
      exact .release hopened
  | openCmd =>
      rcases Option.ite_none_left_eq_some.mp h with ⟨hopened, heq⟩
      unfold timerIoctl at heq
      -- `add_timer` on a timer that is pending is a `BUG_ON`.
      by_cases hpending : s.pending = true
      · rw [if_pos hpending] at heq
        cases heq
        exact .bug hopened hpending
      · rw [if_neg hpending] at heq
        cases heq
        exact .addTimer hopened (Bool.eq_false_iff.mpr hpending)
  | closeCmd =>
      rcases Option.ite_none_left_eq_some.mp h with ⟨hopened, heq⟩
      rcases Option.ite_none_right_eq_some.mp heq with ⟨hplace, heq⟩
      cases heq
      exact .delTimerSync hopened hplace
  | copyPeriod period =>
      rcases Option.ite_none_left_eq_some.mp h with ⟨hopened, heq⟩
      cases heq
      exact .copy period hopened
  | evaluatePeriod =>
      rcases Option.ite_none_left_eq_some.mp h with ⟨hsetting, heq⟩
      cases heq
      exact .evaluatePeriod hsetting
  | setPeriodCmd k =>
      -- One of the calls of `mod_timer` that have their argument.
      cases htime : s.times[k]? with
      | none =>
          simp only [htime] at h
          cases h
      | some expires =>
          simp only [htime] at h
          cases h
          exact .setPeriod k expires htime
  | exit =>
      rcases Option.ite_none_right_eq_some.mp h with ⟨⟨hopened, hsetting, htimes, hexit⟩, heq⟩
      cases heq
      exact .exit hopened hsetting htimes hexit

/-! ### What the last command decides -/

/-- What holds as long as the module is there, of which actions have set the timer last. -/
structure Followed (armed called : Bool) (s : Driver) : Prop where
  pending : s.pending = true ↔ armed = true ∧ called = false
  called : called = true → s.place.Due ∧ armed = true
  due : s.place.Due → armed = true

theorem Followed.alive_iff {armed called : Bool} {s : Driver} (h : Followed armed called s) :
    Alive s ↔ armed = true := by
  constructor
  · rintro (hpending | hdue)
    · exact (h.pending.mp hpending).1
    · exact h.due hdue
  · intro harmed
    cases called with
    | true => exact .inr (h.called rfl).1
    | false => exact .inl (h.pending.mpr ⟨harmed, rfl⟩)

/-- The timer has just been set. -/
theorem followed_set {s : Driver} (h : s.pending = true) : Followed true false s where
  pending := iff_of_true h ⟨rfl, rfl⟩
  called := nofun
  due := fun _ => rfl

/-- A callback that has come to an end, or not begun, has nothing to set. -/
theorem not_due {s : Driver} {place : Callback} (hplace : s.place = place)
    (h : ¬ place.Due) : ¬ s.place.Due := by
  rw [hplace]
  exact h

theorem followed_step {armed called : Bool} {s t : Driver} {a : Action}
    (h : Followed armed called s) (hmoves : Moves ms s a t) (hexit : t.exiting = false) :
    Followed (rearm armed a) (call called a) t := by
  cases hmoves with
  | tick => exact ⟨h.pending, h.called, h.due⟩
  | expire hpending =>
      have harmed := (h.pending.mp hpending).1
      exact ⟨iff_of_false nofun nofun, fun _ => ⟨trivial, harmed⟩, fun _ => harmed⟩
  | evaluate hplace =>
      have harmed : armed = true := h.due (by rw [hplace]; trivial)
      exact ⟨h.pending, fun _ => ⟨trivial, harmed⟩, fun _ => harmed⟩
  | rearm expires hplace =>
      rw [h.due (by rw [hplace]; trivial)]
      exact followed_set rfl
  | finish hplace =>
      -- The callback has set the timer, so that it is not the last to have been called.
      have hcalled : called = false := by
        cases called with
        | false => rfl
        | true => exact absurd (h.called rfl).1 (not_due hplace id)
      have hpending := h.pending
      rw [hcalled] at hpending
      exact ⟨hpending, nofun, nofun⟩
  | opens => exact ⟨h.pending, h.called, h.due⟩
  | release => exact ⟨h.pending, h.called, h.due⟩
  | bug _ hpending => exact followed_set hpending
  | addTimer => exact followed_set rfl
  | delTimerSync _ hplace =>
      -- No callback is under way, so none has been called since the timer was set.
      have hno := not_due hplace id
      exact ⟨iff_of_false nofun nofun, fun hcalled => absurd (h.called hcalled).1 hno,
        fun hdue => absurd hdue hno⟩
  | copy => exact ⟨h.pending, h.called, h.due⟩
  | evaluatePeriod => exact ⟨h.pending, h.called, h.due⟩
  | setPeriod => exact followed_set rfl
  | exit => cases hexit

theorem Moves.exiting_mono {s t : Driver} {a : Action} (h : Moves ms s a t)
    (hexit : t.exiting = false) : s.exiting = false := by
  cases h with
  | exit => cases hexit
  | _ => exact hexit

/-- While the module goes, no file is open and no command is under way. -/
theorem closed_of_exiting {j : Nat} {steps : List (Driver × Action)} {s : Driver}
    (h : (driver ms).Run (start ms j) steps s) :
    s.exiting = true → s.opened = 0 ∧ s.setting = 0 ∧ s.times = [] := by
  induction h with
  | nil => exact nofun
  | snoc steps u a t hrun hstep ih =>
      intro hexit
      cases (step_moves hstep).2 with
      | tick => exact ih hexit
      | expire => exact ih hexit
      | evaluate => exact ih hexit
      | rearm => exact ih hexit
      | finish => exact ih hexit
      | opens hno => exact absurd hexit (Bool.eq_false_iff.mp hno)
      | release hopened => exact absurd (ih hexit).1 hopened
      | bug hopened => exact ih hexit
      | addTimer hopened => exact ih hexit
      | delTimerSync hopened => exact ih hexit
      | copy period hopened => exact absurd (ih hexit).1 hopened
      | evaluatePeriod hsetting => exact absurd (ih hexit).2.1 hsetting
      | setPeriod k expires htime =>
          rw [(ih hexit).2.2] at htime
          cases htime
      | exit hopened hsetting htimes => exact ⟨hopened, hsetting, htimes⟩

theorem followed_run {j : Nat} {steps : List (Driver × Action)} {s : Driver}
    (h : (driver ms).Run (start ms j) steps s) :
    s.exiting = false → Followed (armed steps) (called steps) s := by
  induction h with
  | nil => exact fun _ => followed_set rfl
  | snoc steps u a t hrun hstep ih =>
      intro hexit
      have hmoves := (step_moves hstep).2
      rw [armed_concat, called_concat]
      exact followed_step (ih (hmoves.exiting_mono hexit)) hmoves hexit

/-- Nothing has gone wrong before the last step of a run. -/
theorem crashed_of_snoc {s t : Driver} {a : Action} (h : step ms s a = some t) :
    t.crashed = true ↔ a = .openCmd ∧ s.pending = true := by
  rcases step_moves h with ⟨hcrash, hmoves⟩
  have hno : ¬ s.crashed = true := Bool.eq_false_iff.mp hcrash
  cases hmoves with
  | bug _ hpending => exact iff_of_true rfl ⟨rfl, hpending⟩
  | addTimer _ hpending => exact iff_of_false hno (fun h => Bool.eq_false_iff.mp hpending h.2)
  | _ => exact iff_of_false hno nofun

/-- What a run has come to follows from its actions alone. Unless the module goes, the timer
    will call back if the last command that was for it set it, or there was none. And
    `add_timer` has met a timer that was pending if the last action was an `OPEN_CMD` although
    the timer had been set last, and had not called back since. -/
theorem actions_decide {j : Nat} {steps : List (Driver × Action)} {s : Driver}
    (h : (driver ms).Run (start ms j) steps s) :
    (s.exiting = false → (Alive s ↔ armed steps = true)) ∧
    (s.crashed = true ↔ ∃ before u, steps = before ++ [(u, .openCmd)] ∧
      armed before = true ∧ called before = false) := by
  refine ⟨fun hexit => (followed_run h hexit).alive_iff, ?_⟩
  cases h with
  | nil =>
      refine iff_of_false nofun ?_
      rintro ⟨before, u, heq, -⟩
      exact List.append_ne_nil_of_right_ne_nil before (List.cons_ne_nil _ _) heq.symm
  | snoc steps u a t hrun hstep =>
      have hlast : (∃ before u', steps ++ [(u, a)] = before ++ [(u', .openCmd)] ∧
          armed before = true ∧ called before = false) ↔
          a = .openCmd ∧ armed steps = true ∧ called steps = false := by
        constructor
        · rintro ⟨before, u', heq, harmed⟩
          rcases List.append_inj' heq rfl with ⟨rfl, hsame⟩
          cases hsame
          exact ⟨rfl, harmed⟩
        · rintro ⟨rfl, harmed⟩
          exact ⟨steps, u, rfl, harmed⟩
      rw [hlast, crashed_of_snoc hstep]
      refine and_congr_right (fun ha => ?_)
      subst ha
      -- A command comes through a file, so the module is there.
      rcases step_moves hstep with ⟨hbefore, hmoves⟩
      have hopened : u.opened ≠ 0 := by
        cases hmoves with
        | bug hopened => exact hopened
        | addTimer hopened => exact hopened
      have hexit : u.exiting = false := by
        cases hu : u.exiting with
        | false => rfl
        | true => exact absurd (closed_of_exiting hrun hu).1 hopened
      exact (followed_run hrun hexit).pending

/-- A clock that ticks once a second. -/
def seconds (msecs : Int) : Nat :=
  (msecs / 1000).toNat

/-- `CLOSE_CMD`, and then `OPEN_CMD` twice. -/
theorem actions_decide_open : ∃ steps s, (driver seconds).Run (start seconds 0) steps s ∧
    steps.map Prod.snd = [.open, .closeCmd, .openCmd, .openCmd] ∧ s.crashed = true ∧
    (s.exiting = false → (Alive s ↔ armed steps = true)) ∧
    (s.crashed = true ↔ ∃ before u, steps = before ++ [(u, .openCmd)] ∧
      armed before = true ∧ called before = false) := by
  rcases System.exists_exec (step seconds) (start seconds 0)
    [.open, .closeCmd, .openCmd, .openCmd] (fun s => s.crashed) rfl with ⟨s, hexec, hcrash⟩
  have hrun : (driver seconds).Run (start seconds 0) ([] ++ _) s :=
    System.Run.nil.exec_trace _ hexec
  exact ⟨_, s, hrun, rfl, hcrash, actions_decide hrun⟩

/-! ### How often the timer calls back -/

/-- Every callback has taken the least period, and the one to come will have, unless it is set
    by the callback before it; each command that was held up makes for one callback more. -/
structure Paced (ms : Int → Nat) (w j calls late : Nat) (s : Driver) : Prop where
  period : w ≤ ms s.period
  now : calls * w + j ≤ s.jiffies + late * w
  next : ¬ s.place.Due → (calls + 1) * w + j ≤ max s.expires s.jiffies + late * w
  timed (expires : Nat) : s.place = .timed expires → (calls + 1) * w + j ≤ expires + late * w

/-- A time that has just been worked out is a period away. -/
theorem Paced.timerFreq {w j calls late : Nat} {s : Driver} (h : Paced ms w j calls late s) :
    (calls + 1) * w + j ≤ s.timerFreq ms + late * w := by
  have hperiod := h.period
  have hnow := h.now
  have hsucc : (calls + 1) * w = calls * w + w := Nat.succ_mul calls w
  unfold Driver.timerFreq
  omega

/-- A command sets the timer: to a time that is a period away, or it was held up. -/
theorem Paced.setPeriod {w j calls late : Nat} {s : Driver} (h : Paced ms w j calls late s)
    {k expires : Nat} (htime : s.times[k]? = some expires) :
    (calls + 1) * w + j ≤
      max expires s.jiffies + (late + isLate w s (.setPeriodCmd k)) * w := by
  have hnow := h.now
  have hsucc : (calls + 1) * w = calls * w + w := Nat.succ_mul calls w
  rw [Nat.add_mul late]
  by_cases hlate : expires < s.jiffies + w
  · have hone : isLate w s (.setPeriodCmd k) = 1 := by
      rw [isLate, htime, Option.any_some, if_pos (decide_eq_true hlate)]
    rw [hone, Nat.one_mul]
    omega
  · omega

theorem paced_step {w j calls late : Nat} {s t : Driver} {a : Action}
    (h : Paced ms w j calls late s) (hmoves : Moves ms s a t)
    (hcopy : ∀ period, a = .copyPeriod period → w ≤ ms period) :
    Paced ms w j (calls + isExpire a) (late + isLate w s a) t := by
  cases hmoves with
  | tick =>
      refine ⟨h.period, ?_, fun hno => ?_, h.timed⟩
      · exact Nat.le_trans h.now (Nat.add_le_add_right (Nat.le_succ _) _)
      · have hnext := h.next hno
        change (calls + 1) * w + j ≤ max s.expires (s.jiffies + 1) + late * w
        omega
  | expire _ hexpires hplace =>
      -- The timer was not set by a callback that was still under way.
      have hnext := h.next (not_due hplace id)
      rw [Nat.max_eq_right hexpires] at hnext
      exact ⟨h.period, hnext, fun hno => absurd trivial hno, nofun⟩
  | evaluate =>
      refine ⟨h.period, h.now, fun hno => absurd trivial hno, fun expires heq => ?_⟩
      cases heq
      exact h.timerFreq
  | rearm expires hplace =>
      refine ⟨h.period, h.now, fun _ => ?_, nofun⟩
      exact Nat.le_trans (h.timed expires hplace)
        (Nat.add_le_add_right (Nat.le_max_left _ _) _)
  | finish hplace => exact ⟨h.period, h.now, fun _ => h.next (not_due hplace id), nofun⟩
  | opens => exact ⟨h.period, h.now, h.next, h.timed⟩
  | release => exact ⟨h.period, h.now, h.next, h.timed⟩
  | bug => exact ⟨h.period, h.now, h.next, h.timed⟩
  -- `add_timer` keeps the time that the timer had before.
  | addTimer => exact ⟨h.period, h.now, h.next, h.timed⟩
  | delTimerSync => exact ⟨h.period, h.now, h.next, h.timed⟩
  | copy period => exact ⟨hcopy period rfl, h.now, h.next, h.timed⟩
  | evaluatePeriod => exact ⟨h.period, h.now, h.next, h.timed⟩
  | setPeriod k expires htime =>
      have hmore : late * w ≤ (late + isLate w s (.setPeriodCmd k)) * w :=
        Nat.mul_le_mul_right w (Nat.le_add_right _ _)
      refine ⟨h.period, ?_, fun _ => h.setPeriod htime, fun expires' heq => ?_⟩
      · exact Nat.le_trans h.now (Nat.add_le_add_left hmore _)
      · exact Nat.le_trans (h.timed expires' heq) (Nat.add_le_add_left hmore _)
  | exit => exact ⟨h.period, h.now, h.next, h.timed⟩

theorem paced_run {w j : Nat} {steps : List (Driver × Action)} {s : Driver} (hw : w ≤ ms 1000)
    (h : (driver ms).Run (start ms j) steps s)
    (hcopy : ∀ p ∈ steps, ∀ period, p.2 = .copyPeriod period → w ≤ ms period) :
    Paced ms w j (callbacks steps) (lates w steps) s := by
  induction h with
  | nil =>
      refine ⟨hw, ?_, fun _ => ?_, nofun⟩
      · change 0 * w + j ≤ j + 0 * w
        omega
      · change (0 + 1) * w + j ≤ max (j + ms 1000) j + 0 * w
        omega
  | snoc steps u a t hrun hstep ih =>
      have hbefore := ih (fun p hp => hcopy p (List.mem_append_left _ hp))
      have hlast := hcopy (u, a) (List.mem_append_right _ (List.mem_singleton_self _))
      rw [callbacks_concat, lates_concat]
      exact paced_step hbefore (step_moves hstep).2 hlast

/-- `cnt` counts the callbacks. -/
theorem cnt_eq {j : Nat} {steps : List (Driver × Action)} {s : Driver}
    (h : (driver ms).Run (start ms j) steps s) : s.cnt = wrap (callbacks steps) := by
  induction h with
  | nil => rfl
  | snoc steps u a t hrun hstep ih =>
      rw [callbacks_concat]
      cases (step_moves hstep).2 with
      | expire =>
          change wrap (u.cnt + 1) = wrap ((callbacks steps + 1 : Nat) : Int)
          rw [ih]
          unfold wrap
          omega
      | _ => exact ih

/-- Where every period is at least `w`, the timer calls back once in that time at most, and
    once more for each command that was held up, whatever commands there are and however they
    interleave with the callback. -/
theorem callbacks_le {w j : Nat} {steps : List (Driver × Action)} {s : Driver} (hw : w ≤ ms 1000)
    (h : (driver ms).Run (start ms j) steps s)
    (hcopy : ∀ p ∈ steps, ∀ period, p.2 = .copyPeriod period → w ≤ ms period) :
    s.cnt = wrap (callbacks steps) ∧
      callbacks steps * w + j ≤ s.jiffies + lates w steps * w :=
  ⟨cnt_eq h, (paced_run hw h hcopy).now⟩

/-- A command is held up from the start on until the timer has called back, which it does
    again at once. -/
theorem callbacks_le_late : ∃ steps s, (driver seconds).Run (start seconds 0) steps s ∧
    callbacks steps = 2 ∧ s.jiffies = 1 ∧ lates 1 steps = 1 ∧
    s.cnt = wrap (callbacks steps) ∧
      callbacks steps * 1 + 0 ≤ s.jiffies + lates 1 steps * 1 := by
  rcases System.exists_exec (step seconds) (start seconds 0)
    [.open, .copyPeriod 1000, .evaluatePeriod, .tick, .expire, .evaluate, .goOn, .goOn,
      .setPeriodCmd 0, .expire] (fun s => s.jiffies == 1) rfl with ⟨s, hexec, hjiffies⟩
  have hrun : (driver seconds).Run (start seconds 0) ([] ++ _) s :=
    System.Run.nil.exec_trace _ hexec
  refine ⟨_, s, hrun, rfl, beq_iff_eq.mp hjiffies, rfl, callbacks_le (by decide) hrun ?_⟩
  rintro ⟨t, a⟩ hp period rfl
  have hperiod : Action.copyPeriod period = .copyPeriod 1000 := by
    have ha := List.mem_map_of_mem (f := Prod.snd) hp
    have hactions : List.map Prod.snd ([] ++ System.trace (step seconds) (start seconds 0)
        [.open, .copyPeriod 1000, .evaluatePeriod, .tick, .expire, .evaluate, .goOn, .goOn,
          .setPeriodCmd 0, .expire]) =
        [.open, .copyPeriod 1000, .evaluatePeriod, .tick, .expire, .evaluate, .goOn, .goOn,
          .setPeriodCmd 0, .expire] := rfl
    rw [hactions] at ha
    simpa using ha
  cases hperiod
  decide

/-! ### When the module goes -/

/-- What is left of the timer once `driver_exit` has deleted it. -/
structure Gone (alive : Prop) (s : Driver) : Prop where
  exiting : s.exiting = true
  opened : s.opened = 0
  setting : s.setting = 0
  times : s.times = []
  alive_iff : Alive s ↔ alive

theorem gone_step {alive : Prop} {s t : Driver} {a : Action} (h : Gone alive s)
    (hmoves : Moves ms s a t) : Gone alive t := by
  have hiff := h.alive_iff
  cases hmoves with
  | tick => exact ⟨h.exiting, h.opened, h.setting, h.times, hiff⟩
  | expire hpending =>
      exact ⟨h.exiting, h.opened, h.setting, h.times,
        iff_of_true (.inr trivial) (hiff.mp (.inl hpending))⟩
  | evaluate hplace =>
      -- A callback that has begun will arm the timer again.
      have hdue : s.place.Due := by
        rw [hplace]
        trivial
      exact ⟨h.exiting, h.opened, h.setting, h.times,
        iff_of_true (.inr trivial) (hiff.mp (.inr hdue))⟩
  | rearm expires hplace =>
      have hdue : s.place.Due := by
        rw [hplace]
        trivial
      exact ⟨h.exiting, h.opened, h.setting, h.times,
        iff_of_true (.inl rfl) (hiff.mp (.inr hdue))⟩
  | finish hplace =>
      refine ⟨h.exiting, h.opened, h.setting, h.times, Iff.trans ?_ hiff⟩
      -- Behind `mod_timer` the callback changes nothing.
      unfold Alive
      rw [hplace]
      exact Iff.rfl
  -- The device node is gone, so nobody gives commands any more.
  | opens hno => exact absurd h.exiting (Bool.eq_false_iff.mp hno)
  | release hopened => exact absurd h.opened hopened
  | bug hopened => exact absurd h.opened hopened
  | addTimer hopened => exact absurd h.opened hopened
  | delTimerSync hopened => exact absurd h.opened hopened
  | copy period hopened => exact absurd h.opened hopened
  | evaluatePeriod hsetting => exact absurd h.setting hsetting
  | setPeriod k expires htime =>
      rw [h.times] at htime
      cases htime
  | exit _ _ _ hno => exact absurd h.exiting (Bool.eq_false_iff.mp hno)

theorem gone_run {alive : Prop} {s t : Driver} {steps : List (Driver × Action)} (hs : Gone alive s)
    (h : (driver ms).Run s steps t) : Gone alive t ∧ (¬alive → callbacks steps = 0) := by
  induction h with
  | nil => exact ⟨hs, fun _ => rfl⟩
  | snoc steps u a t hrun hstep ih =>
      rcases ih with ⟨hu, hzero⟩
      have hmoves := (step_moves hstep).2
      refine ⟨gone_step hu hmoves, fun hdead => ?_⟩
      rw [callbacks_concat, hzero hdead]
      cases hmoves with
      | expire hpending => exact absurd (hu.alive_iff.mp (.inl hpending)) hdead
      | _ => rfl

/-- `driver_exit` deletes the timer without waiting for the callback. If the callback was
    about to set the timer again, the timer never comes to rest after that, and calls into
    a module that is gone; otherwise it never calls back. -/
theorem exit_alive_iff {s t u : Driver} {steps : List (Driver × Action)}
    (hexit : step ms s .exit = some t) (h : (driver ms).Run t steps u) :
    (Alive u ↔ s.place.Due) ∧ (¬ s.place.Due → callbacks steps = 0) := by
  have ht : Gone s.place.Due t := by
    cases (step_moves hexit).2 with
    | exit hopened hsetting htimes =>
        exact ⟨rfl, hopened, hsetting, htimes, or_iff_right nofun⟩
  exact ⟨(gone_run ht h).1.alive_iff, (gone_run ht h).2⟩

/-- The timer calls back, the module goes before the callback has set the timer, and the
    timer calls back again. -/
theorem exit_alive_iff_late : ∃ before s t u steps,
    (driver seconds).Run (start seconds 0) before s ∧ step seconds s .exit = some t ∧
    (driver seconds).Run t steps u ∧ callbacks steps = 1 ∧
    (Alive u ↔ s.place.Due) ∧ (¬ s.place.Due → callbacks steps = 0) := by
  rcases System.exists_exec (step seconds) (start seconds 0) [.tick, .expire, .evaluate]
    (fun s => s.place == .timed 2) rfl with ⟨s, hbefore, -⟩
  rcases System.exists_exec (step seconds) s [.exit] (fun t => t.exiting)
    (by cases hbefore; rfl) with ⟨t, hstep, -⟩
  have hexit : step seconds s .exit = some t := by
    rw [← hstep, System.exec]
    cases step seconds s .exit <;> rfl
  rcases System.exists_exec (step seconds) t [.goOn, .goOn, .tick, .expire]
    (fun u => u.cnt == 2) (by cases hbefore; cases hexit; rfl) with ⟨u, hafter, -⟩
  have hrun : (driver seconds).Run (start seconds 0) ([] ++ _) s :=
    System.Run.nil.exec_trace _ hbefore
  have hlater : (driver seconds).Run t ([] ++ _) u := System.Run.nil.exec_trace _ hafter
  refine ⟨_, s, t, u, _, hrun, hexit, hlater, ?_, exit_alive_iff hexit hlater⟩
  cases hbefore
  cases hexit
  rfl

end TimerLab

end BlogSample
