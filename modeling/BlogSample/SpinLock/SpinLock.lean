import BlogSample.Theory.Threads
import Mathlib.Data.List.Count

/-!
# A Spin Lock

`thread_func` of `spin-lock.c` sets the lock and looks at what it was before,
again and again until it was 0, and clears it in the end. In between it prints
the lock as it is then, so a line may show what another thread has just made
of it.

Here it is run by any number of threads. A thread may spin as long as the
lock is taken, so a run has no bound; but a run can always be brought to an
end, and it ends nowhere else. The line inside shows a lock that is set,
whoever else spins, and each thread writes it once.

## Main definitions

* `Place`, `Thread`, `Shared`: Where a thread is, and what the threads share.
* `threadFunc`: What a thread does.
* `threads`: The threads and their runs.
* `Excluded`: The invariant.

## Theorems

* `excluded_step`: The invariant is kept.
* `exists_nearer`: Some step brings the end nearer.
* `one_at_a_time`: What holds at any time, and at the end.
-/

namespace BlogSample

namespace SpinLock

open Transition Threads

/-- A line that a thread prints, with its argument and the lock. -/
inductive Line
  | start (arg lock : Int)
  | wait (arg lock : Int)
  | inside (arg lock : Int)
  deriving DecidableEq

/-- Where a thread is: about to print its first line, to try the lock, to
    print that it waits, to print that it is inside, to release the lock, or
    at its end. -/
inductive Place
  | start
  | trying
  | waiting
  | inside
  | leaving
  | done
  deriving DecidableEq

/-- A thread, with its argument. -/
structure Thread where
  arg : Int
  place : Place
  deriving DecidableEq

/-- The lock, and what has been printed. -/
structure Shared where
  lock : Int
  output : List Line
  deriving DecidableEq

/-- `thread_func`. -/
def threadFunc : Program Shared Thread := fun _ s th =>
  match th.place with
  | .start => some (⟨s.lock, s.output ++ [.start th.arg s.lock]⟩, ⟨th.arg, .trying⟩)
  -- `__sync_lock_test_and_set` sets the lock and returns what it was.
  | .trying => some (⟨1, s.output⟩, ⟨th.arg, if s.lock = 0 then .inside else .waiting⟩)
  | .waiting => some (⟨s.lock, s.output ++ [.wait th.arg s.lock]⟩, ⟨th.arg, .trying⟩)
  | .inside => some (⟨s.lock, s.output ++ [.inside th.arg s.lock]⟩, ⟨th.arg, .leaving⟩)
  | .leaving => some (⟨0, s.output⟩, ⟨th.arg, .done⟩)
  | .done => none

/-- Threads with their arguments, and the lock not set. -/
def init (args : List Int) (s : State Shared Thread) : Prop :=
  s = ⟨⟨0, []⟩, args.map (fun arg => ⟨arg, .start⟩)⟩

/-- The runs of the threads. -/
def threads (args : List Int) : System (State Shared Thread) Nat :=
  system threadFunc (init args)

/-- A thread has the lock. -/
def has (th : Thread) : Nat :=
  match th.place with
  | .inside => 1
  | .leaving => 1
  | _ => 0

/-- A thread with the argument has its line inside to print. -/
def toEnter (arg : Int) (th : Thread) : Nat :=
  match th.place with
  | .leaving => 0
  | .done => 0
  | _ => if th.arg = arg then 1 else 0

/-- How many steps a thread has left if the lock is never taken. -/
def left (th : Thread) : Nat :=
  match th.place with
  | .start => 4
  | .trying => 3
  | .waiting => 4
  | .inside => 2
  | .leaving => 1
  | .done => 0

/-- The arguments of the lines inside, in order. -/
def entered : List Line → List Int
  | [] => []
  | .inside arg _ :: rest => arg :: entered rest
  | .start _ _ :: rest => entered rest
  | .wait _ _ :: rest => entered rest

theorem entered_append (l l' : List Line) : entered (l ++ l') = entered l ++ entered l' := by
  induction l with
  | nil => rfl
  | cons line l ih =>
      cases line with
      | start arg lock => exact ih
      | wait arg lock => exact ih
      | inside arg lock => exact congrArg (arg :: ·) ih

/-- The lock is set as often as a thread has it, the lines inside show it set,
    and each thread has written its line inside or has it to write. -/
structure Excluded (args : List Int) (s : State Shared Thread) : Prop where
  lock : s.shared.lock = tally has s.threads
  le_one : tally has s.threads ≤ 1
  shown : ∀ arg lock, .inside arg lock ∈ s.shared.output → lock = 1
  count : ∀ arg, (entered s.shared.output).count arg + tally (toEnter arg) s.threads =
    args.count arg

theorem tally_toEnter_start (a : Int) (args : List Int) :
    tally (toEnter a) (args.map (fun arg => ⟨arg, .start⟩)) = args.count a := by
  induction args with
  | nil => rfl
  | cons arg args ih =>
      rw [List.map_cons, tally_cons, ih, List.count_cons, Nat.add_comm]
      simp only [toEnter, beq_iff_eq]

theorem excluded_init (args : List Int) :
    Excluded args ⟨⟨0, []⟩, args.map (fun arg => ⟨arg, .start⟩)⟩ := by
  have hno : tally has (args.map (fun arg => (⟨arg, .start⟩ : Thread))) = 0 := by
    refine tally_eq_zero (fun th hth => ?_)
    rcases List.mem_map.mp hth with ⟨arg, -, rfl⟩
    rfl
  refine ⟨?_, ?_, fun arg lock h => absurd h List.not_mem_nil, fun a => ?_⟩
  · change (0 : Int) = tally has _
    rw [hno]
    rfl
  · exact Nat.le_trans (Nat.le_of_eq hno) (Nat.zero_le 1)
  · exact (Nat.zero_add _).trans (tally_toEnter_start a args)

/-- What a step does to a thread that is at a place. -/
theorem threadFunc_eq {i : Nat} {s s' : Shared} {th th' : Thread}
    (h : threadFunc i s th = some (s', th')) :
    th'.arg = th.arg ∧
    ((th.place = .start ∧ th'.place = .trying ∧ s' = ⟨s.lock, s.output ++ [.start th.arg s.lock]⟩) ∨
    (th.place = .trying ∧ th'.place = (if s.lock = 0 then .inside else .waiting) ∧
      s' = ⟨1, s.output⟩) ∨
    (th.place = .waiting ∧ th'.place = .trying ∧
      s' = ⟨s.lock, s.output ++ [.wait th.arg s.lock]⟩) ∨
    (th.place = .inside ∧ th'.place = .leaving ∧
      s' = ⟨s.lock, s.output ++ [.inside th.arg s.lock]⟩) ∨
    (th.place = .leaving ∧ th'.place = .done ∧ s' = ⟨0, s.output⟩)) := by
  unfold threadFunc at h
  cases hp : th.place with
  | done =>
      rw [hp] at h
      cases h
  | start =>
      rw [hp] at h
      cases h
      exact ⟨rfl, .inl ⟨rfl, rfl, rfl⟩⟩
  -- `xchg` writes a 1, whatever it has found.
  | trying =>
      rw [hp] at h
      cases h
      exact ⟨rfl, .inr (.inl ⟨rfl, rfl, rfl⟩)⟩
  | waiting =>
      rw [hp] at h
      cases h
      exact ⟨rfl, .inr (.inr (.inl ⟨rfl, rfl, rfl⟩))⟩
  | inside =>
      rw [hp] at h
      cases h
      exact ⟨rfl, .inr (.inr (.inr (.inl ⟨rfl, rfl, rfl⟩)))⟩
  | leaving =>
      rw [hp] at h
      cases h
      exact ⟨rfl, .inr (.inr (.inr (.inr ⟨rfl, rfl, rfl⟩)))⟩

section Steps

variable {args : List Int} {s : State Shared Thread} (h : Excluded args s) {i : Nat}
  {th th' : Thread} (hth : s.threads[i]? = some th)
include h hth

/-- A step that leaves the lock as it is, and whoever has it. -/
theorem Excluded.print (hhas : has th' = has th) (line : Line)
    (hshown : ∀ arg lock, line = .inside arg lock → lock = 1)
    (hcount : ∀ a, (entered [line]).count a + toEnter a th' = toEnter a th) :
    Excluded args ⟨⟨s.shared.lock, s.shared.output ++ [line]⟩, s.threads.set i th'⟩ := by
  have hset := tally_set has th' hth
  have hsame : tally has (s.threads.set i th') = tally has s.threads := by omega
  refine ⟨?_, ?_, fun arg lock hmem => ?_, fun a => ?_⟩
  · change s.shared.lock = tally has (s.threads.set i th')
    rw [hsame]
    exact h.lock
  · change tally has (s.threads.set i th') ≤ 1
    rw [hsame]
    exact h.le_one
  · rcases List.mem_append.mp hmem with hmem | hmem
    · exact h.shown arg lock hmem
    · exact hshown arg lock (List.mem_singleton.mp hmem).symm
  · change (entered (s.shared.output ++ [line])).count a +
      tally (toEnter a) (s.threads.set i th') = _
    have henter := tally_set (toEnter a) th' hth
    have hold := h.count a
    have hline := hcount a
    rw [entered_append, List.count_append]
    omega

/-- A step that prints nothing, and after which the lock is set as often as a
    thread has it. -/
theorem Excluded.change (henter : ∀ a, toEnter a th' = toEnter a th) (lock : Int)
    (hlock : lock = tally has (s.threads.set i th')) (hone : tally has (s.threads.set i th') ≤ 1) :
    Excluded args ⟨⟨lock, s.shared.output⟩, s.threads.set i th'⟩ := by
  refine ⟨hlock, hone, h.shown, fun a => ?_⟩
  change (entered s.shared.output).count a + tally (toEnter a) (s.threads.set i th') = _
  have hset := tally_set (toEnter a) th' hth
  have hold := h.count a
  have hsame := henter a
  omega

end Steps

theorem excluded_step {args : List Int} {s t : State Shared Thread} (h : Excluded args s) {i : Nat}
    (hstep : Threads.step threadFunc s i = some t) : Excluded args t := by
  rcases step_eq_some.mp hstep with ⟨th, s', th', hth, hm, rfl⟩
  have hlock := h.lock
  have hle := h.le_one
  have hset := tally_set has th' hth
  have hmem := le_tally has (List.mem_of_getElem? hth)
  rcases threadFunc_eq hm with ⟨harg, ⟨hp, hp', rfl⟩ | ⟨hp, hp', rfl⟩ | ⟨hp, hp', rfl⟩ |
    ⟨hp, hp', rfl⟩ | ⟨hp, hp', rfl⟩⟩
  · refine h.print hth (by simp only [has, hp, hp']) _ nofun (fun a => ?_)
    simp only [toEnter, hp, hp', harg, entered, List.count_nil, Nat.zero_add]
  · have hhas : has th = 0 := by simp only [has, hp]
    by_cases hzero : s.shared.lock = 0
    -- Whoever finds the lock clear has it, and nobody else has.
    · rw [if_pos hzero] at hp'
      have hhas' : has th' = 1 := by simp only [has, hp']
      exact h.change hth (fun a => by simp only [toEnter, hp, hp', harg]) 1 (by omega) (by omega)
    · rw [if_neg hzero] at hp'
      have hhas' : has th' = 0 := by simp only [has, hp']
      exact h.change hth (fun a => by simp only [toEnter, hp, hp', harg]) 1 (by omega) (by omega)
  · refine h.print hth (by simp only [has, hp, hp']) _ nofun (fun a => ?_)
    simp only [toEnter, hp, hp', harg, entered, List.count_nil, Nat.zero_add]
  -- It prints inside, with the lock set.
  · have hhas : has th = 1 := by simp only [has, hp]
    refine h.print hth (by simp only [has, hp, hp']) _ (fun arg lock hl => ?_) (fun a => ?_)
    · cases hl
      omega
    · simp only [toEnter, hp, hp', entered, List.count_singleton, beq_iff_eq, Nat.add_zero]
  -- It clears the lock, which it had.
  · have hhas : has th = 1 := by simp only [has, hp]
    have hhas' : has th' = 0 := by simp only [has, hp']
    refine h.change hth (fun a => ?_) 0 (by omega) (by omega)
    simp only [toEnter, hp, hp']

theorem reachable_excluded {args : List Int} {s : State Shared Thread}
    (h : (threads args).Reachable s) : Excluded args s :=
  h.invariant (Excluded args) (fun s (hs : init args s) => by rw [hs]; exact excluded_init args)
    (fun _ _ _ hs hst => excluded_step hs hst)

/-- Some step brings the end nearer: one of the thread that has the lock, and
    of any thread if none has. -/
theorem exists_nearer {args : List Int} {s : State Shared Thread} (h : Excluded args s)
    (hnot : ¬ ∀ th ∈ s.threads, th.place = .done) :
    ∃ i t, Threads.step threadFunc s i = some t ∧ tally left t.threads < tally left s.threads := by
  -- A step of one thread lowers the sum by what it lowers for this thread.
  have hmove : ∀ {i : Nat} {th th' : Thread} {s' : Shared}, s.threads[i]? = some th →
      threadFunc i s.shared th = some (s', th') → left th' < left th → ∃ i t,
        Threads.step threadFunc s i = some t ∧ tally left t.threads < tally left s.threads := by
    intro i th th' s' hth hm hlt
    refine ⟨i, _, step_of hth hm, ?_⟩
    have hset := tally_set left th' hth
    change tally left (s.threads.set i th') < _
    omega
  -- The thread that has the lock goes on.
  by_cases hhas : 0 < tally has s.threads
  · rcases (tally_pos_iff has s.threads).mp hhas with ⟨th, hmem, hpos⟩
    rcases List.mem_iff_getElem?.mp hmem with ⟨i, hth⟩
    rcases th with ⟨arg, place⟩
    cases place with
    | inside => exact hmove hth rfl (by simp only [left]; omega)
    | leaving => exact hmove hth rfl (by simp only [left]; omega)
    | start => exact absurd hpos (Nat.lt_irrefl 0)
    | trying => exact absurd hpos (Nat.lt_irrefl 0)
    | waiting => exact absurd hpos (Nat.lt_irrefl 0)
    | done => exact absurd hpos (Nat.lt_irrefl 0)
  · have hfree : s.shared.lock = 0 := by
      have := h.lock
      omega
    -- Nobody has it, so anybody who tries gets it.
    have hleft : ∃ th ∈ s.threads, th.place ≠ .done := by
      by_contra hno
      exact hnot (fun th hth => by_contra (fun hp => hno ⟨th, hth, hp⟩))
    rcases hleft with ⟨⟨arg, place⟩, hmem, hp⟩
    rcases List.mem_iff_getElem?.mp hmem with ⟨i, hth⟩
    cases place with
    | done => exact absurd rfl hp
    | trying => exact hmove hth rfl (by simp only [left, if_pos hfree]; omega)
    | start => exact hmove hth rfl (by simp only [left]; omega)
    | waiting => exact hmove hth rfl (by simp only [left]; omega)
    | inside => exact hmove hth rfl (by simp only [left]; omega)
    | leaving => exact hmove hth rfl (by simp only [left]; omega)

/-- At any time one thread at most is inside, the lines inside show a lock that
    is set, and the threads can all still end. Where none can go on, all have
    ended, the lock is clear, and each has written its line inside once. -/
theorem one_at_a_time (args : List Int) :
    (∀ s, (threads args).Reachable s →
      tally has s.threads ≤ 1 ∧ (∀ arg lock, .inside arg lock ∈ s.shared.output → lock = 1) ∧
      ∃ steps t, (threads args).Run s steps t ∧ ∀ th ∈ t.threads, th.place = .done) ∧
    ∀ s, (threads args).Reachable s → Stuck threadFunc s →
      (∀ th ∈ s.threads, th.place = .done) ∧ s.shared.lock = 0 ∧
        (entered s.shared.output).Perm args := by
  refine ⟨fun s hs => ?_, fun s hs hstuck => ?_⟩
  · have h := reachable_excluded hs
    refine ⟨h.le_one, h.shown, System.finishes (Excluded args) (fun s => tally left s.threads)
      (fun s => ∀ th ∈ s.threads, th.place = .done) (fun s hs hnot => ?_) h⟩
    rcases exists_nearer hs hnot with ⟨i, t, hstep, hlt⟩
    exact ⟨i, t, hstep, excluded_step hs hstep, hlt⟩
  · have h := reachable_excluded hs
    -- As long as a thread has something left, some thread can go on.
    have hdone : ∀ th ∈ s.threads, th.place = .done := by
      by_contra hnot
      rcases exists_nearer h hnot with ⟨i, t, hstep, -⟩
      rw [hstuck i] at hstep
      cases hstep
    refine ⟨hdone, ?_, List.perm_iff_count.mpr (fun a => ?_)⟩
    · rw [h.lock, tally_eq_zero (fun th hth => by simp only [has, hdone th hth])]
      rfl
    · have hcount := h.count a
      rw [tally_eq_zero (fun th hth => by simp only [toEnter, hdone th hth])] at hcount
      exact hcount

end SpinLock

end BlogSample
