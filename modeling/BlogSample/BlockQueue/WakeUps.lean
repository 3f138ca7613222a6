import BlogSample.BlockQueue.Queue

/-!
# Lost Wake-Ups of the Blocking Queue

Where every call has returned or waits un-pulsed, no `Take` should wait while
there are items, and no `Add` while there is room. Two steps break that. A
`Take` that was pulsed finds no item yet, because `Add` pulses before it
enqueues, and it waits again. And a pulse may go to a caller of the wrong kind,
because `Take` and `Add` wait in the same wait set.

Without such steps, the pulsed `Take`s are as many as the items in the queue
and under way, as long as a `Take` waits, and the free places are no more than
the pulsed `Add`s, as long as an `Add` waits. With one, the pulsed `Take`s can
all be run while the queue is empty, and wait; whatever is enqueued after that
is never taken.

## Main definitions

* `takeLost`, `addLost`: A wake-up has been lost.
* `heard`: Neither of the two steps.
* `Sound`: What holds where no wake-up gets lost.
* `Doomed`: What leads to a lost wake-up.
* `Wakes`: Whom a pulse wakes.

## Theorems

* `pulse_cases`: A pulse wakes nobody, a `Take` or an `Add`.
* `Sound.step`, `not_lost`: No wake-up gets lost where every step is heard.
* `Doomed.exists_lost`: How a wake-up gets lost.
* `wakeUps_heard`: Both.
* `wakeUps_lost`: A run for each of the two steps.
-/

namespace BlogSample

namespace BlockQueue

open Monitor Transition

variable {τ : Type}

/-- Has the call of the thread returned, or does it wait un-pulsed? -/
def quiet : Thread (Place τ) (Method τ) → Bool
  | .outside place => !place.underWay
  | .waiting _ => true
  | _ => false

/-- A `Take` waits, there are items, and nobody else is on the move. -/
def takeLost (s : State (OwnBlockQueue τ) (Place τ) (Method τ)) : Bool :=
  s.threads.all quiet && 0 < s.waiting Method.takes && 0 < s.shared.count

/-- An `Add` waits, there is room, and nobody else is on the move. -/
def addLost (s : State (OwnBlockQueue τ) (Place τ) (Method τ)) : Bool :=
  s.threads.all quiet && 0 < s.waiting Method.adds && s.shared.count < s.shared.maxLength

/-- A `Take` that is about to wait leaves a pulsed one for every item under
    way. A `Take` that dequeues wakes a `Take` only if no `Add` waits, or
    enough of them are pulsed for the free places. An `Add` that passes its
    test wakes an `Add` only if no `Take` waits, or enough of them are pulsed
    for the items. -/
def heard (s : State (OwnBlockQueue τ) (Place τ) (Method τ)) : Label (Method τ) → Bool
  | .run th choice =>
      match s.threads[th]?.bind Thread.turn with
      | some (.take, entry) =>
          if s.shared.count = 0 then
            -- It waits. There has to be a pulse left for every item under way.
            underWay s + entry.pulsedAs Method.takes (.take : Method τ) ≤ s.pulsed Method.takes
          else
            -- It dequeues and pulses, which is meant for an `Add`.
            match s.threads[choice]? with
            | some (.waiting .take) => s.waiting Method.adds = 0 ||
                s.shared.maxLength < s.shared.count + underWay s + s.pulsed Method.adds
            | _ => true
      | some (.add _, _) =>
          s.shared.maxLength ≤ s.shared.count ||
            -- It passes its test and pulses, which is meant for a `Take`.
            match s.threads[choice]? with
            | some (.waiting (.add _)) => s.waiting Method.takes = 0 ||
                s.shared.count + underWay s < s.pulsed Method.takes
            | _ => true
      | none => true
  | _ => true

/-- What holds where no wake-up gets lost. -/
structure Sound (s : State (OwnBlockQueue τ) (Place τ) (Method τ)) : Prop where
  takers : 0 < s.waiting Method.takes → s.shared.count + underWay s ≤ s.pulsed Method.takes
  adders : 0 < s.waiting Method.adds →
    s.shared.maxLength ≤ s.shared.count + underWay s + s.pulsed Method.adds

/-- There are enough `Take`s in line to empty the queue, there is one more
    `Take` in line or waiting, and something is left that was added or that
    waits to be. -/
structure Doomed (s : State (OwnBlockQueue τ) (Place τ) (Method τ)) : Prop where
  emptied : s.shared.count ≤ s.inLine Method.takes
  another : s.shared.count + 1 ≤ s.inLine Method.takes + s.waiting Method.takes
  remains : 0 < underWay s + s.inLine Method.adds + s.waiting Method.adds

section Steps

variable {s t : State (OwnBlockQueue τ) (Place τ) (Method τ)} {choice : Nat} {entry : Entry}
  {woken : List (Thread (Place τ) (Method τ))}

/-- What a turn with `k` counts that wakes some `Take`s and some `Add`s. -/
structure Wakes (s t : State (OwnBlockQueue τ) (Place τ) (Method τ)) (k : Method τ) (entry : Entry)
    (takes adds : Nat) : Prop where
  waitingTakes : t.waiting Method.takes + takes = s.waiting Method.takes
  waitingAdds : t.waiting Method.adds + adds = s.waiting Method.adds
  pulsedTakes : t.pulsed Method.takes + entry.pulsedAs Method.takes k =
    s.pulsed Method.takes + takes
  pulsedAdds : t.pulsed Method.adds + entry.pulsedAs Method.adds k = s.pulsed Method.adds + adds
  inLineTakes : t.inLine Method.takes + k.takes.toNat = s.inLine Method.takes + takes
  inLineAdds : t.inLine Method.adds + k.adds.toNat = s.inLine Method.adds + adds

/-- A pulse wakes nobody, if nobody waits, or a `Take`, or an `Add`. -/
theorem pulse_cases {k : Method τ} {shared : OwnBlockQueue τ} {place : Place τ}
    (hturn : Turn s choice k entry { shared := shared, signal := .pulse, next := .leaves place }
      woken t) :
    (s.waiting Method.takes = 0 ∧ s.waiting Method.adds = 0 ∧ Wakes s t k entry 0 0) ∨
    (s.threads[choice]? = some (.waiting .take) ∧ Wakes s t k entry 1 0) ∨
    ∃ data, s.threads[choice]? = some (.waiting (.add data)) ∧ Wakes s t k entry 0 1 := by
  rcases hturn.pulse_leaves with hnone | ⟨k', hchoice, hcounts⟩
  · rcases hnone Method.takes with ⟨htake, htake', hpulsed, hline⟩
    rcases hnone Method.adds with ⟨hadd, hadd', hpulsed', hline'⟩
    exact Or.inl ⟨htake, hadd, htake'.trans htake.symm, hadd'.trans hadd.symm, hpulsed, hpulsed',
      hline, hline'⟩
  · rcases hcounts Method.takes with ⟨htake, hpulsed, hline⟩
    rcases hcounts Method.adds with ⟨hadd, hpulsed', hline'⟩
    cases k' with
    | take => exact Or.inr (Or.inl ⟨hchoice, htake, hadd, hpulsed, hpulsed', hline, hline'⟩)
    | add data =>
        exact Or.inr (Or.inr ⟨data, hchoice, htake, hadd, hpulsed, hpulsed', hline, hline'⟩)

/-- A turn with `Take`, in the empty queue or in one that is not. -/
theorem take_cases (hturn : Turn s choice .take entry (take s.shared) woken t) :
    (s.shared.count = 0 ∧ t.shared = s.shared ∧
      Turn s choice .take entry { shared := s.shared, signal := .silent, next := .waits }
        woken t) ∨
    ∃ shared result, shared.maxLength = s.shared.maxLength ∧ shared.count + 1 = s.shared.count ∧
      t.shared = shared ∧
      Turn s choice .take entry
        { shared := shared, signal := .pulse, next := .leaves (.take result) } woken t := by
  unfold take at hturn
  split at hturn
  · next hempty =>
      refine Or.inl ⟨?_, hturn.shared, hturn⟩
      unfold OwnBlockQueue.count
      rw [hempty]
      rfl
  · next result rest hqueue =>
      refine Or.inr ⟨{ s.shared with queue := rest }, result, rfl, ?_, hturn.shared, hturn⟩
      unfold OwnBlockQueue.count
      rw [hqueue]
      rfl

/-- A turn with `Add` that passes its test. -/
theorem add_passes {data : τ} (hpass : s.shared.count < s.shared.maxLength) :
    add data s.shared =
      { shared := s.shared, signal := .pulse, next := .leaves (.enqueues data) } := by
  unfold add
  rw [if_neg (Int.not_le.mpr hpass)]

/-- A turn with `Add` that does not. -/
theorem add_waits {data : τ} (hfull : s.shared.maxLength ≤ s.shared.count) :
    add data s.shared = { shared := s.shared, signal := .silent, next := .waits } := by
  unfold add
  rw [if_pos hfull]

/-- An `Enqueue` only moves an item from under way into the queue. -/
theorem Sound.congr (h : Sound s) (hmax : t.shared.maxLength = s.shared.maxLength)
    (hsum : t.shared.count + underWay t = s.shared.count + underWay s)
    (hwaiting : ∀ p, t.waiting p = s.waiting p) (hpulsed : ∀ p, t.pulsed p = s.pulsed p) :
    Sound t := by
  refine ⟨fun hpos => ?_, fun hpos => ?_⟩
  · rw [hwaiting] at hpos
    rw [hsum, hpulsed]
    exact h.takers hpos
  · rw [hwaiting] at hpos
    rw [hsum, hpulsed, hmax]
    exact h.adders hpos

/-- A turn with `Take` keeps `Sound`. -/
theorem Sound.take (h : Sound s) (hturn : Turn s choice .take entry (take s.shared) woken t)
    (hempty : s.shared.count = 0 →
      underWay s + entry.pulsedAs Method.takes (.take : Method τ) ≤ s.pulsed Method.takes)
    (hwakes : s.shared.count ≠ 0 → s.threads[choice]? = some (.waiting .take) →
      s.waiting Method.adds = 0 ∨
        s.shared.maxLength < s.shared.count + underWay s + s.pulsed Method.adds) : Sound t := by
  -- The counts before and after the step, for `omega`.
  have htakers := h.takers
  have hadders := h.adders
  have hunder := (take_counts hturn).2.2
  have hself : entry.pulsedAs Method.adds (.take : Method τ) = 0 := Entry.pulsedAs_of_not rfl entry
  have hone := Entry.pulsedAs_le_one Method.takes (.take : Method τ) entry
  have hnonneg := t.shared.count_nonneg
  rcases take_cases hturn with
    ⟨hcount, hshared, hwait⟩ | ⟨shared, result, hmax, hcount, hshared, hpulse⟩
  -- The queue is empty, and the thread waits without a pulse.
  · rcases hwait.silent_waits Method.takes with ⟨-, htake, -⟩
    rcases hwait.silent_waits Method.adds with ⟨hadd, hadd', -⟩
    have hadd : t.waiting Method.adds = s.waiting Method.adds := hadd
    have hleft := hempty hcount
    refine ⟨fun _ => ?_, fun hpos => ?_⟩
    · rw [hshared]
      omega
    · rw [hadd] at hpos
      have hfree := hadders hpos
      rw [hshared]
      omega
  · rw [← hshared] at hmax hcount
    -- `Pulse` finds nobody, wakes another `Take`, or wakes an `Add`.
    rcases pulse_cases hpulse with ⟨hnone, hnone', hc⟩ | ⟨hchoice, hc⟩ | ⟨data, hchoice, hc⟩
    · have htake := hc.waitingTakes
      have hadd := hc.waitingAdds
      exact ⟨fun hpos => by omega, fun hpos => by omega⟩
    · rcases hc with ⟨htake, hadd, htake', hadd', -, -⟩
      refine ⟨fun _ => ?_, fun hpos => ?_⟩
      -- One item less, and one pulsed `Take` for another.
      · have hless := htakers (by omega)
        omega
      -- The pulse did not go to an `Add`, although there is a place more.
      · have hfree := hwakes (by omega) hchoice
        omega
    · rcases hc with ⟨htake, hadd, htake', hadd', -, -⟩
      refine ⟨fun hpos => ?_, fun _ => ?_⟩
      · have hless := htakers (htake ▸ hpos)
        omega
      -- One free place more, and one pulsed `Add` more.
      · have hfree := hadders (by omega)
        omega

/-- A turn with `Add` keeps `Sound`. -/
theorem Sound.add {data : τ} (h : Sound s)
    (hturn : Turn s choice (.add data) entry (add data s.shared) woken t)
    (hwakes : s.shared.count < s.shared.maxLength → ∀ data,
      s.threads[choice]? = some (.waiting (.add data)) → s.waiting Method.takes = 0 ∨
        s.shared.count + underWay s < s.pulsed Method.takes) : Sound t := by
  -- The counts before and after the step, for `omega`.
  have htakers := h.takers
  have hadders := h.adders
  have hself : entry.pulsedAs Method.takes (.add data) = 0 := Entry.pulsedAs_of_not rfl entry
  have hone := Entry.pulsedAs_le_one Method.adds (.add data) entry
  rcases add_counts hturn with ⟨hshared, hpasses, hwaits⟩
  by_cases hpass : s.shared.count < s.shared.maxLength
  · have hunder := hpasses hpass
    rw [add_passes hpass] at hturn
    -- `Pulse` finds nobody, wakes a `Take`, or wakes another `Add`.
    rcases pulse_cases hturn with ⟨hnone, hnone', hc⟩ | ⟨hchoice, hc⟩ | ⟨data', hchoice, hc⟩
    · have htake := hc.waitingTakes
      have hadd := hc.waitingAdds
      exact ⟨fun hpos => by omega, fun hpos => by omega⟩
    · rcases hc with ⟨htake, hadd, htake', hadd', -, -⟩
      refine ⟨fun _ => ?_, fun hpos => ?_⟩
      -- One item more under way, and one pulsed `Take` for it.
      · have hless := htakers (by omega)
        rw [hshared]
        omega
      · have hfree := hadders (hadd ▸ hpos)
        rw [hshared]
        omega
    · rcases hc with ⟨htake, hadd, htake', hadd', -, -⟩
      refine ⟨fun hpos => ?_, fun _ => ?_⟩
      -- The pulse did not go to a `Take`, although there is an item more.
      · have hless := hwakes hpass data' hchoice
        rw [hshared]
        omega
      · have hfree := hadders (by omega)
        rw [hshared]
        omega
  -- The queue is full, and the thread waits without a pulse.
  · have hfull := Int.not_lt.mp hpass
    have hunder := hwaits hfull
    rw [add_waits hfull] at hturn
    rcases hturn.silent_waits Method.takes with ⟨htake, htake', -⟩
    have htake : t.waiting Method.takes = s.waiting Method.takes := htake
    refine ⟨fun hpos => ?_, fun _ => ?_⟩
    · have hless := htakers (htake ▸ hpos)
      rw [hshared]
      omega
    · rw [hshared]
      omega

/-- A step that is heard keeps `Sound`. -/
theorem Sound.step (h : Sound s) {a : Label (Method τ)} (hstep : Monitor.step program s a = some t)
    (hheard : heard s a = true) : Sound t := by
  cases step_moves hstep with
  | @call th place k hthread hcalls =>
      -- Only a thread with nothing under way makes a call.
      have hset := tally_set (Thread.outsideAs Place.underWay) (.entering k) hthread
      have hunder : underWay (s.setThread th (.entering k)) + place.underWay.toNat =
        underWay s := hset
      have hplace : place.underWay = false := by simpa [program] using hcalls
      rw [hplace, Bool.toNat_false, Nat.add_zero] at hunder
      refine h.congr rfl (by rw [hunder]; rfl) (fun p => ?_) (fun p => ?_)
      · exact tally_set (Thread.waitingAs p) _ hthread
      · exact tally_set (Thread.pulsedAs p) _ hthread
  | expire hthread htimed => cases htimed
  | act hthread hact =>
      rcases act_counts hthread hact rfl with ⟨hcount, hmax, hunder⟩
      refine h.congr hmax (by rw [hcount]; omega) (fun p => ?_) (fun p => ?_)
      · exact tally_set (Thread.waitingAs p) _ hthread
      · exact tally_set (Thread.pulsedAs p) _ hthread
  | @run th choice thread k entry woken hthread hturn hsent =>
      have hmoved := hsent.turn hthread hturn
      simp only [heard, hthread, Option.bind_some, hturn] at hheard
      cases k with
      | take =>
          refine h.take hmoved (fun hempty => ?_) (fun hempty hchoice => ?_)
          · simpa [hempty] using hheard
          · simpa [hempty, hchoice] using hheard
      | add data =>
          refine h.add hmoved (fun hpass data hchoice => ?_)
          simpa [hchoice, Int.not_le.mpr hpass] using hheard

/-- In a sound state no wake-up has been lost: where nobody is on the move,
    nobody has been pulsed and nothing is under way. -/
theorem Sound.not_lost (h : Sound s) : takeLost s = false ∧ addLost s = false := by
  -- When all threads wait or are done, nothing is under way and nobody has been
  -- woken.
  have hquiet (hall : s.threads.all quiet = true) :
      underWay s = 0 ∧ ∀ p, s.pulsed p = 0 := by
    refine ⟨?_, fun p => ?_⟩
    · by_contra hpos
      rcases (tally_pos_iff _ _).mp (Nat.pos_of_ne_zero hpos) with ⟨thread, hthread, hweight⟩
      have hthread := List.all_eq_true.mp hall thread hthread
      cases thread with
      | outside place =>
          have hplace : place.underWay = false := by simpa [quiet] using hthread
          change 0 < place.underWay.toNat at hweight
          rw [hplace] at hweight
          cases hweight
      | entering k => cases hweight
      | waiting k => cases hweight
      | ready k pulsed => cases hweight
    · by_contra hpos
      rcases (tally_pos_iff _ _).mp (Nat.pos_of_ne_zero hpos) with ⟨thread, hthread, hweight⟩
      have hthread := List.all_eq_true.mp hall thread hthread
      cases thread with
      | outside place => cases hweight
      | entering k => cases hweight
      | waiting k => cases hweight
      | ready k pulsed => cases hthread
  refine ⟨?_, ?_⟩
  · by_contra hlost
    unfold takeLost at hlost
    simp only [Bool.not_eq_false, Bool.and_eq_true, decide_eq_true_iff] at hlost
    rcases hlost with ⟨⟨hall, hwaits⟩, hitems⟩
    rcases hquiet hall with ⟨hunder, hpulsed⟩
    -- But items without a wake-up are what the invariant excludes.
    have hless := h.takers hwaits
    rw [hpulsed, hunder] at hless
    omega
  · by_contra hlost
    unfold addLost at hlost
    simp only [Bool.not_eq_false, Bool.and_eq_true, decide_eq_true_iff] at hlost
    rcases hlost with ⟨⟨hall, hwaits⟩, hfree⟩
    rcases hquiet hall with ⟨hunder, hpulsed⟩
    have hless := h.adders hwaits
    rw [hpulsed, hunder] at hless
    omega

/-- A turn with `Take` that is not heard dooms. -/
theorem Sound.doomed_take (h : Sound s)
    (hturn : Turn s choice .take entry (BlockQueue.take s.shared) woken t)
    (hnot : s.shared.count = 0 ∧
        s.pulsed Method.takes < underWay s + entry.pulsedAs Method.takes (.take : Method τ) ∨
      s.shared.count ≠ 0 ∧ s.threads[choice]? = some (.waiting .take) ∧
        0 < s.waiting Method.adds) : Doomed t := by
  have htakers := h.takers
  have hunder := (take_counts hturn).2.2
  rcases take_cases hturn with
    ⟨hcount, hshared, hwait⟩ | ⟨shared, result, hmax, hcount, hshared, hpulse⟩
  · rcases hwait.silent_waits Method.takes with ⟨htake, htake', -⟩
    have htake : t.waiting Method.takes = s.waiting Method.takes + 1 := htake
    -- It waits, although an item is under way that no other `Take` is pulsed for.
    rcases hnot with ⟨-, hless⟩ | ⟨hempty, -⟩
    · refine ⟨?_, ?_, by omega⟩
      · rw [hshared, hcount]
        exact Int.natCast_nonneg _
      · rw [hshared, hcount]
        omega
    · exact absurd hcount hempty
  · rw [← hshared] at hmax hcount
    have hnonneg := t.shared.count_nonneg
    -- It has taken an item, and wakes a `Take` while an `Add` waits.
    rcases hnot with ⟨hempty, -⟩ | ⟨-, hchoice, hadds⟩
    · omega
    · rcases pulse_cases hpulse with ⟨-, hnone, -⟩ | ⟨-, hc⟩ | ⟨data, hchosen, -⟩
      · omega
      -- The `Add` that waits is left waiting.
      · rcases hc with ⟨htake, hadd, -, -, htake', -⟩
        have htake' : t.inLine Method.takes + 1 = s.inLine Method.takes + 1 := htake'
        have hless := htakers (by omega)
        have hline := pulsed_le_inLine s Method.takes
        exact ⟨by omega, by omega, by omega⟩
      · rw [hchoice, Option.some.injEq, Thread.waiting.injEq] at hchosen
        cases hchosen

/-- A turn with `Add` that is not heard dooms. -/
theorem Sound.doomed_add {data data' : τ} (h : Sound s)
    (hturn : Turn s choice (.add data) entry (BlockQueue.add data s.shared) woken t)
    (hpass : s.shared.count < s.shared.maxLength)
    (hchoice : s.threads[choice]? = some (.waiting (.add data')))
    (htakes : 0 < s.waiting Method.takes) : Doomed t := by
  have hless := h.takers htakes
  have hline := pulsed_le_inLine s Method.takes
  rcases add_counts hturn with ⟨hshared, hpasses, -⟩
  have hunder := hpasses hpass
  rw [add_passes hpass] at hturn
  rcases pulse_cases hturn with ⟨hnone, -, -⟩ | ⟨hchosen, -⟩ | ⟨data', -, hc⟩
  · omega
  · rw [hchoice, Option.some.injEq, Thread.waiting.injEq] at hchosen
    cases hchosen
  -- The `Take` that waits is left waiting.
  · rcases hc with ⟨htake, -, -, -, htake', -⟩
    have htake' : t.inLine Method.takes = s.inLine Method.takes := htake'
    refine ⟨?_, ?_, by omega⟩
    · rw [hshared]
      omega
    · rw [hshared]
      omega

/-- A step that is not heard dooms. -/
theorem Sound.doomed (h : Sound s) {a : Label (Method τ)}
    (hstep : Monitor.step program s a = some t)
    (hheard : heard s a = false) : Doomed t := by
  cases step_moves hstep with
  | call _ _ => cases hheard
  | expire _ _ => cases hheard
  | act _ _ => cases hheard
  | @run th choice thread k entry woken hthread hturn hsent =>
      have hmoved := hsent.turn hthread hturn
      -- Only a thread that takes its turn can be the one that is not heard.
      simp only [heard, hthread, Option.bind_some, hturn] at hheard
      cases k with
      | take =>
          refine h.doomed_take hmoved ?_
          simp only at hheard
          split at hheard
          · next hempty => exact Or.inl ⟨hempty, Nat.not_le.mp (of_decide_eq_false hheard)⟩
          · next hempty =>
              refine Or.inr ⟨hempty, ?_⟩
              split at hheard
              · next hchoice =>
                  rw [Bool.or_eq_false_iff, decide_eq_false_iff_not] at hheard
                  exact ⟨hchoice, Nat.pos_of_ne_zero hheard.1⟩
              · cases hheard
      | add data =>
          simp only [Bool.or_eq_false_iff, decide_eq_false_iff_not, Int.not_le] at hheard
          rcases hheard with ⟨hpass, hwakes⟩
          split at hwakes
          · next hchoice =>
              rw [Bool.or_eq_false_iff, decide_eq_false_iff_not] at hwakes
              exact h.doomed_add hmoved hpass hchoice (Nat.pos_of_ne_zero hwakes.1)
          · cases hwakes

/-- What is still to be run before nothing can be woken any more. -/
def toRun (s : State (OwnBlockQueue τ) (Place τ) (Method τ)) : Nat :=
  3 * s.shared.queue.length + s.inLine Method.takes +
    3 * (s.inLine Method.adds + s.waiting Method.adds)

/-- A turn with `Take` leaves the run doomed, and less to run. -/
theorem Doomed.take (h : Doomed s)
    (hturn : Turn s choice .take entry (BlockQueue.take s.shared) woken t) :
    Doomed t ∧ toRun t < toRun s := by
  have hemptied := h.emptied
  have hanother := h.another
  have hremains := h.remains
  have hunder := (take_counts hturn).2.2
  have hlength : s.shared.count = s.shared.queue.length := rfl
  have hlength' : t.shared.count = t.shared.queue.length := rfl
  unfold toRun
  rcases take_cases hturn with
    ⟨hcount, hshared, hwait⟩ | ⟨shared, result, hmax, hcount, hshared, hpulse⟩
  · rcases hwait.silent_waits Method.takes with ⟨htake, -, htake'⟩
    rcases hwait.silent_waits Method.adds with ⟨hadd, -, hadd'⟩
    have htake : t.waiting Method.takes = s.waiting Method.takes + 1 := htake
    have htake' : t.inLine Method.takes + 1 = s.inLine Method.takes := htake'
    have hadd : t.waiting Method.adds = s.waiting Method.adds := hadd
    have hadd' : t.inLine Method.adds = s.inLine Method.adds := hadd'
    rw [← hshared] at hcount hlength
    exact ⟨⟨by omega, by omega, by omega⟩, by omega⟩
  · rw [← hshared] at hcount
    have hwoken (takes adds : Nat) (hsum : takes + adds ≤ 1)
        (hc : Wakes s t .take entry takes adds) : Doomed t ∧ toRun t < toRun s := by
      rcases hc with ⟨htake, hadd, -, -, htake', hadd'⟩
      have htake' : t.inLine Method.takes + 1 = s.inLine Method.takes + takes := htake'
      have hadd' : t.inLine Method.adds = s.inLine Method.adds + adds := hadd'
      unfold toRun
      exact ⟨⟨by omega, by omega, by omega⟩, by omega⟩
    -- Whoever is woken, the queue has one item less to be run.
    rcases pulse_cases hpulse with ⟨-, -, hc⟩ | ⟨-, hc⟩ | ⟨data, -, hc⟩
    · exact hwoken 0 0 (by omega) hc
    · exact hwoken 1 0 (by omega) hc
    · exact hwoken 0 1 (by omega) hc

/-- A turn with `Add` in the empty queue, where its pulse goes to a `Take`. -/
theorem Doomed.add {data : τ} (h : Doomed s)
    (hturn : Turn s choice (.add data) entry (BlockQueue.add data s.shared) woken t)
    (hempty : s.shared.count = 0) (hmax : 1 ≤ s.shared.maxLength)
    (hchoice : s.threads[choice]? = some (.waiting .take)) (hwaits : 0 < s.waiting Method.takes) :
    Doomed t ∧ toRun t < toRun s := by
  have hremains := h.remains
  have hpass : s.shared.count < s.shared.maxLength := by omega
  have hlength : s.shared.count = s.shared.queue.length := rfl
  rcases add_counts hturn with ⟨hshared, hpasses, -⟩
  have hunder := hpasses hpass
  rw [add_passes hpass] at hturn
  unfold toRun
  rw [hshared]
  rcases pulse_cases hturn with ⟨hnone, -, -⟩ | ⟨-, hc⟩ | ⟨data', hchosen, -⟩
  · omega
  · rcases hc with ⟨htake, hadd, -, -, htake', hadd'⟩
    have htake' : t.inLine Method.takes = s.inLine Method.takes + 1 := htake'
    have hadd' : t.inLine Method.adds + 1 = s.inLine Method.adds := hadd'
    rw [← hshared] at hempty
    exact ⟨⟨by omega, by omega, by omega⟩, by omega⟩
  · rw [hchoice, Option.some.injEq, Thread.waiting.injEq] at hchosen
    cases hchosen

/-- As long as a call is in line, a turn can be had that leaves the run
    doomed, and less to run: of a `Take`, or else of an `Add`, with its pulse
    to a `Take`. -/
theorem Doomed.exists_step (h : Doomed s) (hmax : 1 ≤ s.shared.maxLength)
    (hline : 0 < s.inLine Method.takes ∨ 0 < s.inLine Method.adds) :
    ∃ a t, Monitor.step program s a = some t ∧ t.shared.maxLength = s.shared.maxLength ∧
      Doomed t ∧ toRun t < toRun s := by
  by_cases htakes : 0 < s.inLine Method.takes
  -- A `Take` has its turn, and its pulse may go to anybody.
  · rcases exists_turn htakes with ⟨th, thread, k, entry, hthread, hturn, hk⟩
    cases k with
    | add data => cases hk
    | take =>
        rcases exists_send (BlockQueue.take s.shared).signal s.threads with
          ⟨choice, woken, hsend⟩
        rcases step_run (P := program) hthread hturn hsend with ⟨t, hstep, hmoved⟩
        exact ⟨.run th choice, t, hstep, (take_counts hmoved).2.1, h.take hmoved⟩
  -- No `Take` is in line, so the queue is empty and a `Take` waits.
  · have hemptied := h.emptied
    have hanother := h.another
    have hnonneg := s.shared.count_nonneg
    have hwaits : 0 < s.waiting Method.takes := by omega
    rcases exists_turn (hline.resolve_left htakes) with
      ⟨th, thread, k, entry, hthread, hturn, hk⟩
    cases k with
    | take => cases hk
    | add data =>
        rcases exists_waiting hwaits with ⟨choice, k, hchoice, hk'⟩
        cases k with
        | add data => cases hk'
        | take =>
            have hempty : s.shared.count = 0 := by omega
            have hsend : (program.block (.add data) entry s.shared).signal.send choice s.threads =
                some (s.threads.set choice (.ready .take true)) := by
              change (BlockQueue.add data s.shared).signal.send choice s.threads = _
              rw [add_passes (by omega)]
              simp only [Signal.send, hchoice]
            rcases step_run (P := program) hthread hturn hsend with ⟨t, hstep, hmoved⟩
            exact ⟨.run th choice, t, hstep,
              congrArg OwnBlockQueue.maxLength (add_counts hmoved).1,
              h.add hmoved hempty hmax hchoice hwaits⟩

/-- Where nobody is in line and nothing is under way, nobody is on the move. -/
theorem all_quiet (hunder : underWay s = 0) (htakes : s.inLine Method.takes = 0)
    (hadds : s.inLine Method.adds = 0) : s.threads.all quiet = true := by
  refine List.all_eq_true.mpr (fun thread hthread => ?_)
  have htake := le_tally (Thread.inLineAs Method.takes) hthread
  have hadd := le_tally (Thread.inLineAs Method.adds) hthread
  have hplace := le_tally (Thread.outsideAs Place.underWay) hthread
  have hnone (k : Method τ) (hk : k.takes.toNat ≤ s.inLine Method.takes)
      (hk' : k.adds.toNat ≤ s.inLine Method.adds) : False := by
    cases k with
    | take =>
        rw [htakes] at hk
        cases hk
    | add data =>
        rw [hadds] at hk'
        cases hk'
  cases thread with
  | entering k => exact (hnone k htake hadd).elim
  | ready k pulsed => exact (hnone k htake hadd).elim
  | waiting k => rfl
  | outside place =>
      have hplace : place.underWay.toNat ≤ underWay s := hplace
      rw [hunder, Nat.le_zero, Bool.toNat_eq_zero] at hplace
      change (!place.underWay) = true
      rw [hplace]
      rfl

/-- A doomed run loses a wake-up: the calls in line are run until none is left,
    and then everything under way is enqueued. -/
theorem Doomed.exists_lost (n : Nat) :
    ∀ s : State (OwnBlockQueue τ) (Place τ) (Method τ), toRun s = n → Doomed s →
      1 ≤ s.shared.maxLength → ∃ as t, System.exec (Monitor.step program) s as = some t ∧
        (takeLost t = true ∨ addLost t = true) := by
  induction n using Nat.strongRecOn with
  | _ n ih =>
      intro s hn h hmax
      by_cases hline : 0 < s.inLine Method.takes ∨ 0 < s.inLine Method.adds
      -- One more turn, after which there is less to run.
      · rcases h.exists_step hmax hline with ⟨a, t, hstep, hsame, ht, hless⟩
        rcases ih (toRun t) (hn ▸ hless) t rfl ht (hsame ▸ hmax) with ⟨as, u, hexec, hlost⟩
        refine ⟨a :: as, u, ?_, hlost⟩
        rw [System.exec, hstep]
        exact hexec
      -- Nobody is in line. What is under way is enqueued, and nobody is left
      -- to take it.
      · have hanother := h.another
        have hremains := h.remains
        have hnonneg := s.shared.count_nonneg
        have hemptied := h.emptied
        rcases exists_enqueued (underWay s) s rfl with
          ⟨as, t, hexec, hcount, hsame, hunder, hcounts⟩
        rcases hcounts Method.takes with ⟨htake, htake'⟩
        rcases hcounts Method.adds with ⟨hadd, hadd'⟩
        have hquiet := all_quiet hunder (by omega) (by omega)
        refine ⟨as, t, hexec, ?_⟩
        unfold takeLost addLost
        rw [hquiet]
        simp only [Bool.true_and, Bool.and_eq_true, decide_eq_true_iff]
        omega

end Steps

variable {maxLength : Int}

/-- Where every step is heard, no wake-up gets lost. A step that is not heard
    leads to a lost one. -/
theorem wakeUps_heard (hmax : 1 ≤ maxLength) :
    (∀ s, ((system (τ := τ) maxLength).restrict (heard · · = true)).Reachable s →
      takeLost s = false ∧ addLost s = false) ∧
    ∀ (s t : State (OwnBlockQueue τ) (Place τ) (Method τ)) (a : Label (Method τ)),
      ((system maxLength).restrict (heard · · = true)).Reachable s →
      Monitor.step program s a = some t → heard s a = false →
      ∃ as u, System.exec (Monitor.step program) t as = some u ∧
        (takeLost u = true ∨ addLost u = true) := by
  have hsound (s : State (OwnBlockQueue τ) (Place τ) (Method τ))
      (hs : ((system (τ := τ) maxLength).restrict (heard · · = true)).Reachable s) : Sound s := by
    refine hs.invariant Sound (fun s hs => ?_) (fun s a t hsound hst => ?_)
    · have hnone (p : Method τ → Bool) : s.waiting p = 0 := by
        refine tally_waitingAs_of_nobody (fun thread hthread => ?_) p
        rw [hs.2 thread hthread]
        rfl
      exact ⟨fun hpos => absurd (hnone _) (Nat.pos_iff_ne_zero.mp hpos),
        fun hpos => absurd (hnone _) (Nat.pos_iff_ne_zero.mp hpos)⟩
    · exact hsound.step hst.2 hst.1
  refine ⟨fun s hs => (hsound s hs).not_lost, fun s t a hs hstep hheard => ?_⟩
  have ht : (system maxLength).Reachable t := .step s a t hs.of_restrict hstep
  exact Doomed.exists_lost _ t rfl ((hsound s hs).doomed hstep hheard)
    (maxLength_eq ht ▸ hmax)

/-- A queue for one item, and three threads. -/
def three : State (OwnBlockQueue Nat) (Place Nat) (Method Nat) where
  shared := OwnBlockQueue.new 1
  threads := List.replicate 3 (.outside .uncalled)

/-- A `Take` waits, and has its turn when the item is in the queue. -/
def inTime : List (Label (Method Nat)) :=
  [.call 0 .take, .run 0 0, .call 1 (.add 7), .run 1 0, .act 1, .run 0 0, .call 2 .take, .run 2 0]

/-- Every step is heard, and the `Take` that waits in the end is not lost. -/
theorem wakeUps_inTime :
    ∃ s, ((system (τ := Nat) 1).restrict (heard · · = true)).Reachable s ∧
      s.threads[0]? = some (.outside (.take 7)) ∧ takeLost s = false := by
  rcases System.exists_exec (System.guarded heard (Monitor.step program)) three inTime
    (fun s => s.threads[0]? == some (.outside (.take 7))) (by decide) with ⟨s, hexec, hend⟩
  rcases System.Run.of_guarded inTime .nil (fun _ h => absurd h List.not_mem_nil) hexec with
    ⟨steps, hrun, hheard⟩
  have hreach : ((system (τ := Nat) 1).restrict (heard · · = true)).Reachable s :=
    (hrun.restrict hheard).reachable ⟨rfl, fun _ hthread => List.eq_of_mem_replicate hthread⟩
  exact ⟨s, hreach, beq_iff_eq.mp hend, ((wakeUps_heard (Int.le_refl 1)).1 s hreach).1⟩

/-- `Take` is pulsed before the item is enqueued, and waits again. -/
def earlyPulse : List (Label (Method Nat)) :=
  [.call 0 .take, .run 0 0, .call 1 (.add 7), .run 1 0, .run 0 0, .act 1]

/-- Two calls of `Take` wait, then one of `Add`, and the pulse for `Add` goes to
    `Take`. -/
def wrongKind : List (Label (Method Nat)) :=
  [.call 0 .take, .run 0 0, .call 1 .take, .run 1 0, .call 2 (.add 1), .run 2 0, .act 2,
    .call 2 (.add 2), .run 2 0, .run 0 1, .run 1 0]

/-- A wake-up gets lost for `Take`, and one for `Add`. -/
theorem wakeUps_lost : (∃ s, (system (τ := Nat) 1).Reachable s ∧ takeLost s = true) ∧
    ∃ s, (system (τ := Nat) 1).Reachable s ∧ addLost s = true := by
  have hreach (as : List (Label (Method Nat))) (lost)
      (h : (System.exec (Monitor.step program) three as).any lost = true) :
      ∃ s, (system (τ := Nat) 1).Reachable s ∧ lost s = true := by
    rcases System.exists_exec (Monitor.step program) three as lost h with ⟨s, hexec, hlost⟩
    exact ⟨s, System.reachable_of_exec as three s
      (.init _ ⟨rfl, fun _ hthread => List.eq_of_mem_replicate hthread⟩) hexec, hlost⟩
  exact ⟨hreach earlyPulse takeLost (by decide), hreach wrongKind addLost (by decide)⟩

end BlockQueue

end BlogSample
