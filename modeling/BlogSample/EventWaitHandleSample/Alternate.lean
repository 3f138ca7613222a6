import BlogSample.Int32
import BlogSample.Theory.Transition
import Mathlib.Logic.Function.Basic

/-!
# Three Threads in Turn

`Alternate.Call` of the event wait handle sample, run by a thread for each of
the three callers. An iteration goes through five atomic steps: it reads the
index, waits for its event if it is not its turn, writes its name, counts the
index up and sets the event of the next caller. The loop makes a given number
of iterations.

A thread that finds its own key does not wait, so the event that is set for it
stays set. This is harmless only if the thread never waits again.

## Main definitions

* `Caller`, `notifyMapping`: The callers and their events.
* `Alternate`, `step`: The threads step by step.
* `Alternates`: The lines are a prefix of A B C A B C and so on.
* `InTurn`: A step that leaves no event behind for a later wait.
* `Inv`: The invariant of runs of such steps.

## Theorems

* `alternates_append`: Whose line may be next.
* `inv_step`: A step that leaves no event behind keeps the invariant.
-/

namespace BlogSample

namespace EventWaitHandleSample

open DotNet Transition

inductive Caller where
  | callerA
  | callerB
  | callerC
  deriving DecidableEq, Repr

/-- `Index`. -/
def Caller.index : Caller → Int
  | .callerA => 1
  | .callerB => 2
  | .callerC => 3

/-- `Name`. -/
def Caller.name : Caller → Char
  | .callerA => 'A'
  | .callerB => 'B'
  | .callerC => 'C'

inductive AutoResetEvent where
  | notifyA
  | notifyB
  | notifyC
  deriving DecidableEq, Repr

structure NotifyMap where
  wait : AutoResetEvent
  notify : AutoResetEvent

/-- `_notifyMapping`. -/
def notifyMapping : Caller → NotifyMap
  | .callerA => ⟨.notifyA, .notifyB⟩
  | .callerB => ⟨.notifyB, .notifyC⟩
  | .callerC => ⟨.notifyC, .notifyA⟩

/-- The next step of a thread. -/
inductive Pc where
  | readIndex
  | waitOne
  | writeLine
  | increment
  | set
  deriving DecidableEq, Repr

/-- The fields, where each thread is in its loop, and what has been written. -/
structure Alternate where
  index : Int
  signaled : AutoResetEvent → Bool
  pc : Caller → Pc
  i : Caller → Nat
  out : List Caller

/-- `new Alternate()`, before the first step. -/
def start : Alternate where
  index := 0
  signaled := fun _ => false
  pc := fun _ => .readIndex
  i := fun _ => 0
  out := []

/-- `index % _notifyMapping.Count + 1`. -/
def Alternate.key (s : Alternate) : Int :=
  s.index.tmod 3 + 1

/-- The next step of a thread, where it has one. -/
def step (count : Nat) (s : Alternate) (c : Caller) : Option Alternate :=
  match s.pc c with
  | .readIndex =>
      if s.i c < count then
        some { s with
          pc := Function.update s.pc c (if s.key ≠ c.index then .waitOne else .writeLine) }
      else none
  | .waitOne =>
      if s.signaled (notifyMapping c).wait = true then
        some { s with
          signaled := Function.update s.signaled (notifyMapping c).wait false
          pc := Function.update s.pc c .writeLine }
      else none
  | .writeLine =>
      some { s with out := s.out ++ [c], pc := Function.update s.pc c .increment }
  | .increment =>
      some { s with index := wrap (s.index + 1), pc := Function.update s.pc c .set }
  | .set =>
      some { s with
        signaled := Function.update s.signaled (notifyMapping c).notify true
        i := Function.update s.i c (s.i c + 1)
        pc := Function.update s.pc c .readIndex }

/-- The three threads. -/
def threads (count : Nat) : System Alternate Caller :=
  System.ofFn (fun s => s = start) (step count)

/-- The lines are a prefix of A B C A B C and so on. -/
def Alternates (out : List Caller) : Prop :=
  ∀ k name, (out.map Caller.name)[k]? = some name → ['A', 'B', 'C'][k % 3]? = some name

/-- The caller of a line. -/
def turn (k : Nat) : Caller :=
  if k % 3 = 0 then .callerA else if k % 3 = 1 then .callerB else .callerC

/-- A thread only finds its own key before the first line, or in its turn when it
    does not wait again. -/
def InTurn (count : Nat) (s : Alternate) (c : Caller) : Prop :=
  s.pc c = .readIndex → s.key = c.index →
    s.out = [] ∨ (s.i c + 1 = count ∧ c = turn s.out.length)

/-! ### Lines -/

/-- The caller after another one. -/
def Caller.next : Caller → Caller
  | .callerA => .callerB
  | .callerB => .callerC
  | .callerC => .callerA

theorem turn_succ (k : Nat) : turn (k + 1) = (turn k).next := by
  unfold turn
  split_ifs <;> first | rfl | omega

theorem name_turn (k : Nat) : ['A', 'B', 'C'][k % 3]? = some (turn k).name := by
  have hk : k % 3 = 0 ∨ k % 3 = 1 ∨ k % 3 = 2 := by omega
  unfold turn
  rcases hk with hk | hk | hk <;> rw [hk] <;> rfl

theorem name_injective {c d : Caller} (h : c.name = d.name) : c = d := by
  cases c <;> cases d <;> first | rfl | exact absurd h (by decide)

theorem alternates_iff (out : List Caller) :
    Alternates out ↔ ∀ k c, out[k]? = some c → c = turn k := by
  unfold Alternates
  constructor
  · intro h k c hc
    have hname := h k c.name (by rw [List.getElem?_map, hc]; rfl)
    rw [name_turn, Option.some.injEq] at hname
    exact (name_injective hname).symm
  · intro h k name hname
    rw [List.getElem?_map, Option.map_eq_some_iff] at hname
    rcases hname with ⟨c, hc, rfl⟩
    rw [name_turn, h k c hc]

/-- One more line. -/
theorem alternates_append {out : List Caller} {c : Caller} :
    Alternates (out ++ [c]) ↔ Alternates out ∧ c = turn out.length := by
  rw [alternates_iff, alternates_iff]
  constructor
  · intro h
    refine ⟨fun k d hd => h k d ?_, h out.length c (by simp)⟩
    rw [List.getElem?_append_left (List.getElem?_eq_some_iff.mp hd).1, hd]
  · rintro ⟨h, hc⟩ k d hd
    rcases Nat.lt_or_ge k out.length with hlt | hge
    · rw [List.getElem?_append_left hlt] at hd
      exact h k d hd
    · rw [List.getElem?_append_right hge] at hd
      have hk : k - out.length < 1 := (List.getElem?_eq_some_iff.mp hd).1
      have hk : k = out.length := by omega
      rw [hk, Nat.sub_self, List.getElem?_cons_zero, Option.some.injEq] at hd
      rw [hk, ← hd, hc]

/-! ### The invariant -/

/-- The caller before another one. -/
def Caller.previous : Caller → Caller
  | .callerA => .callerC
  | .callerB => .callerA
  | .callerC => .callerB

/-- A thread has written its line and has not yet told the next one. -/
def Alternate.Passing (s : Alternate) (c : Caller) : Prop :=
  s.pc c = .increment ∨ s.pc c = .set

/-- The event of a thread is set or is going to be. -/
def Alternate.Signal (s : Alternate) (c : Caller) : Prop :=
  s.signaled (notifyMapping c).wait = true ∨ s.Passing c.previous

/-- A thread does not wait any more. -/
def Alternate.Spent (count : Nat) (s : Alternate) (c : Caller) : Prop :=
  count ≤ s.i c ∨ (s.i c + 1 = count ∧ s.pc c ≠ .readIndex ∧ s.pc c ≠ .waitOne)

/-- There is one signal, and it goes to the thread whose turn it is, if that one does
    not write already. -/
structure Inv (count : Nat) (s : Alternate) : Prop where
  alternates : Alternates s.out
  writing (c : Caller) : s.pc c = .writeLine → c = turn s.out.length
  signal (c : Caller) : ¬ s.Spent count c → s.Signal c →
    c = turn s.out.length ∧ ∀ d, s.pc d ≠ .writeLine
  single (c : Caller) : ¬ s.Spent count c → s.signaled (notifyMapping c).wait = true →
    ¬ s.Passing c.previous
  first : s.out = [] → s.index = 0 ∧ ∀ c, ¬ s.Signal c
  loop (c : Caller) : s.pc c ≠ .readIndex → s.i c < count
  token : s.out ≠ [] →
    s.pc (turn s.out.length) = .writeLine ∨ s.Signal (turn s.out.length)

theorem notify_eq_wait_iff (c d : Caller) :
    (notifyMapping c).notify = (notifyMapping d).wait ↔ c = d.previous := by
  cases c <;> cases d <;> decide

theorem wait_eq_wait_iff (c d : Caller) :
    (notifyMapping c).wait = (notifyMapping d).wait ↔ c = d := by
  cases c <;> cases d <;> decide

theorem next_previous (c : Caller) : c.previous.next = c := by
  cases c <;> rfl

theorem previous_next (c : Caller) : c.next.previous = c := by
  cases c <;> rfl

theorem previous_ne (c : Caller) : c.previous ≠ c := by
  cases c <;> decide

/-- What a thread can do. -/
theorem step_cases {count : Nat} {s t : Alternate} {c : Caller} (h : step count s c = some t) :
    (s.pc c = .readIndex ∧ s.i c < count ∧ s.key ≠ c.index ∧
      t = { s with pc := Function.update s.pc c .waitOne }) ∨
    (s.pc c = .readIndex ∧ s.i c < count ∧ s.key = c.index ∧
      t = { s with pc := Function.update s.pc c .writeLine }) ∨
    (s.pc c = .waitOne ∧ s.signaled (notifyMapping c).wait = true ∧
      t = { s with
        signaled := Function.update s.signaled (notifyMapping c).wait false
        pc := Function.update s.pc c .writeLine }) ∨
    (s.pc c = .writeLine ∧
      t = { s with out := s.out ++ [c], pc := Function.update s.pc c .increment }) ∨
    (s.pc c = .increment ∧
      t = { s with index := wrap (s.index + 1), pc := Function.update s.pc c .set }) ∨
    (s.pc c = .set ∧
      t = { s with
        signaled := Function.update s.signaled (notifyMapping c).notify true
        i := Function.update s.i c (s.i c + 1)
        pc := Function.update s.pc c .readIndex }) := by
  unfold step at h
  cases hpc : s.pc c with
  | readIndex =>
      simp only [hpc] at h
      -- The loop is over, or the key tells whether the thread has to wait.
      split_ifs at h with hi hkey
      · exact Or.inl ⟨rfl, hi, hkey, (Option.some.inj h).symm⟩
      · exact Or.inr (Or.inl ⟨rfl, hi, not_not.mp hkey, (Option.some.inj h).symm⟩)
  | waitOne =>
      simp only [hpc] at h
      split_ifs at h with hset
      exact Or.inr (Or.inr (Or.inl ⟨rfl, hset, (Option.some.inj h).symm⟩))
  | writeLine =>
      simp only [hpc] at h
      exact Or.inr (Or.inr (Or.inr (Or.inl ⟨rfl, (Option.some.inj h).symm⟩)))
  | increment =>
      simp only [hpc] at h
      exact Or.inr (Or.inr (Or.inr (Or.inr (Or.inl ⟨rfl, (Option.some.inj h).symm⟩))))
  | set =>
      simp only [hpc] at h
      exact Or.inr (Or.inr (Or.inr (Or.inr (Or.inr ⟨rfl, (Option.some.inj h).symm⟩))))

section

variable {count : Nat} {s t : Alternate} {c : Caller} {p : Pc}

/-- The other threads stay where they are. -/
theorem passing_update (hpc : t.pc = Function.update s.pc c p) (d : Caller) :
    t.Passing d ↔ (d = c ∧ (p = .increment ∨ p = .set)) ∨ (d ≠ c ∧ s.Passing d) := by
  unfold Alternate.Passing
  rw [hpc]
  by_cases hd : d = c
  · rw [hd, Function.update_self]
    simp
  · rw [Function.update_of_ne hd]
    simp [hd]

theorem passing_congr (hpc : t.pc = Function.update s.pc c p)
    (h : s.Passing c ↔ p = .increment ∨ p = .set) (d : Caller) : t.Passing d ↔ s.Passing d := by
  rw [passing_update hpc, ← h]
  by_cases hd : d = c
  · simp [hd]
  · simp [hd]

theorem writing_congr (hpc : t.pc = Function.update s.pc c p)
    (h : p = .writeLine ↔ s.pc c = .writeLine) (d : Caller) :
    t.pc d = .writeLine ↔ s.pc d = .writeLine := by
  rw [hpc]
  by_cases hd : d = c
  · rw [hd, Function.update_self, h]
  · rw [Function.update_of_ne hd]

/-- A thread that does not wait any more never does. -/
theorem spent_update (hpc : t.pc = Function.update s.pc c p) (hi : t.i = s.i)
    (hp : s.pc c ≠ .readIndex → s.pc c ≠ .waitOne → p ≠ .readIndex ∧ p ≠ .waitOne)
    (d : Caller) (h : s.Spent count d) : t.Spent count d := by
  unfold Alternate.Spent at *
  rw [hi, hpc]
  rcases h with h | ⟨h, hread, hwait⟩
  · exact Or.inl h
  · by_cases hd : d = c
    · subst hd
      rw [Function.update_self]
      exact Or.inr ⟨h, hp hread hwait⟩
    · rw [Function.update_of_ne hd]
      exact Or.inr ⟨h, hread, hwait⟩

/-- The invariant only depends on who writes, on the signals and on who still
    waits. -/
theorem Inv.congr (hs : Inv count s) (hout : t.out = s.out)
    (hwrite : ∀ d, t.pc d = .writeLine ↔ s.pc d = .writeLine)
    (hspent : ∀ d, s.Spent count d → t.Spent count d) (hsignal : ∀ d, t.Signal d ↔ s.Signal d)
    (hsingle : ∀ d, t.signaled (notifyMapping d).wait = true → t.Passing d.previous →
      s.signaled (notifyMapping d).wait = true ∧ s.Passing d.previous)
    (hindex : s.out = [] → t.index = s.index) (hloop : ∀ d, t.pc d ≠ .readIndex → t.i d < count) :
    Inv count t := by
  constructor
  · exact hout ▸ hs.alternates
  · intro d hd
    rw [hout]
    exact hs.writing d ((hwrite d).mp hd)
  · intro d hd hsig
    rcases hs.signal d (mt (hspent d) hd) ((hsignal d).mp hsig) with ⟨hturn, hnone⟩
    rw [hout]
    exact ⟨hturn, fun e he => hnone e ((hwrite e).mp he)⟩
  · intro d hd hset hpassing
    rcases hsingle d hset hpassing with ⟨hset, hpassing⟩
    exact hs.single d (mt (hspent d) hd) hset hpassing
  · intro hnil
    rw [hout] at hnil
    rcases hs.first hnil with ⟨hzero, hnone⟩
    exact ⟨(hindex hnil).trans hzero, fun d hd => hnone d ((hsignal d).mp hd)⟩
  · exact hloop
  · intro hne
    rw [hout] at hne ⊢
    rw [hwrite, hsignal]
    exact hs.token hne

/-- A thread writes in its turn. -/
theorem Inv.writes (hs : Inv count s) (hpc : t.pc = Function.update s.pc c .writeLine)
    (hself : c = turn s.out.length) (d : Caller) (hd : t.pc d = .writeLine) :
    d = turn s.out.length := by
  by_cases hdc : d = c
  · exact hdc.trans hself
  · rw [hpc, Function.update_of_ne hdc] at hd
    exact hs.writing d hd

/-- The loop is entered with iterations left. -/
theorem loop_update (hs : Inv count s) (hpc : t.pc = Function.update s.pc c p) (hi : t.i = s.i)
    (hc : s.i c < count) (d : Caller) (hd : t.pc d ≠ .readIndex) : t.i d < count := by
  rw [hi]
  by_cases hdc : d = c
  · exact hdc ▸ hc
  · rw [hpc, Function.update_of_ne hdc] at hd
    exact hs.loop d hd

/-- A thread that does not find its key goes on to wait. -/
theorem inv_wait (hs : Inv count s) (hpc : s.pc c = .readIndex) (hi : s.i c < count)
    (ht : t = { s with pc := Function.update s.pc c .waitOne }) : Inv count t := by
  have htpc : t.pc = Function.update s.pc c .waitOne := by rw [ht]
  have hpassing := passing_congr htpc (by simp [Alternate.Passing, hpc])
  have hwriting := writing_congr htpc (by simp [hpc])
  refine hs.congr (by rw [ht]) hwriting
    (spent_update htpc (by rw [ht]) (fun h => absurd hpc h)) (fun d => ?_) (fun d hset hp => ?_)
    (fun _ => by rw [ht]) (loop_update hs htpc (by rw [ht]) hi)
  · unfold Alternate.Signal
    rw [hpassing, ht]
  · rw [ht] at hset
    exact ⟨hset, (hpassing _).mp hp⟩

/-- A thread counts the index up. -/
theorem inv_increment (hs : Inv count s) (hpc : s.pc c = .increment)
    (ht : t = { s with index := wrap (s.index + 1), pc := Function.update s.pc c .set }) :
    Inv count t := by
  have htpc : t.pc = Function.update s.pc c .set := by rw [ht]
  have hpassing := passing_congr htpc (by simp [Alternate.Passing, hpc])
  have hi : s.i c < count := hs.loop c (by rw [hpc]; decide)
  have hwriting := writing_congr htpc (by simp [hpc])
  refine hs.congr (by rw [ht]) hwriting
    (spent_update htpc (by rw [ht]) (fun _ _ => by decide)) (fun d => ?_) (fun d hset hp => ?_)
    (fun hnil => ?_) (loop_update hs htpc (by rw [ht]) hi)
  · unfold Alternate.Signal
    rw [hpassing, ht]
  · rw [ht] at hset
    exact ⟨hset, (hpassing _).mp hp⟩
  -- The index is only counted up after a line.
  · refine absurd ?_ ((hs.first hnil).2 c.next)
    exact Or.inr (by rw [previous_next]; exact Or.inl hpc)

/-- A thread sets the event of the next one. -/
theorem inv_set (hs : Inv count s) (hpc : s.pc c = .set)
    (ht : t = { s with
      signaled := Function.update s.signaled (notifyMapping c).notify true
      i := Function.update s.i c (s.i c + 1)
      pc := Function.update s.pc c .readIndex }) : Inv count t := by
  have htpc : t.pc = Function.update s.pc c .readIndex := by rw [ht]
  have hi : s.i c < count := hs.loop c (by rw [hpc]; decide)
  have hpassing (d : Caller) : t.Passing d ↔ d ≠ c ∧ s.Passing d := by
    rw [passing_update htpc]
    simp
  -- The event that is set is the one that the next thread waits for.
  have hset (d : Caller) : t.signaled (notifyMapping d).wait = true ↔
      d.previous = c ∨ s.signaled (notifyMapping d).wait = true := by
    have htset : t.signaled = Function.update s.signaled (notifyMapping c).notify true := by
      rw [ht]
    by_cases hd : d.previous = c
    · rw [htset, (notify_eq_wait_iff c d).mpr hd.symm, Function.update_self]
      simp [hd]
    · rw [htset, Function.update_of_ne (fun h => hd ((notify_eq_wait_iff c d).mp h.symm).symm)]
      simp [hd]
  -- The signal goes from the thread, which has passed, to its event.
  have hwriting := writing_congr htpc (by simp [hpc])
  refine hs.congr (by rw [ht]) hwriting (fun d hd => ?_) (fun d => ?_) (fun d h hp => ?_)
    (fun _ => by rw [ht]) (fun d hd => ?_)
  · have hti : t.i = Function.update s.i c (s.i c + 1) := by rw [ht]
    unfold Alternate.Spent at *
    rw [hti, htpc]
    by_cases hdc : d = c
    · rw [hdc, Function.update_self]
      rw [hdc] at hd
      omega
    · rw [Function.update_of_ne hdc, Function.update_of_ne hdc]
      exact hd
  · unfold Alternate.Signal
    rw [hset, hpassing]
    by_cases hd : d.previous = c
    · simp [hd, Alternate.Passing, hpc]
    · simp [hd]
  · rw [hset] at h
    rw [hpassing] at hp
    exact ⟨h.resolve_left hp.1, hp.2⟩
  · have hti : t.i = Function.update s.i c (s.i c + 1) := by rw [ht]
    rw [htpc] at hd
    by_cases hdc : d = c
    · rw [hdc, Function.update_self] at hd
      exact absurd rfl hd
    · rw [Function.update_of_ne hdc] at hd
      rw [hti, Function.update_of_ne hdc]
      exact hs.loop d hd

/-- A thread finds its key before the first line, or in its turn and for the last
    time. -/
theorem inv_key (hs : Inv count s) (hpc : s.pc c = .readIndex) (hi : s.i c < count)
    (hkey : s.key = c.index)
    (hturn : s.out = [] ∨ (s.i c + 1 = count ∧ c = turn s.out.length))
    (ht : t = { s with pc := Function.update s.pc c .writeLine }) : Inv count t := by
  have htpc : t.pc = Function.update s.pc c .writeLine := by rw [ht]
  have hout : t.out = s.out := by rw [ht]
  have hpassing := passing_congr htpc (by simp [Alternate.Passing, hpc])
  -- No event is touched.
  have hsignal (d : Caller) : t.Signal d ↔ s.Signal d := by
    unfold Alternate.Signal
    rw [hpassing, ht]
  have hspent (d : Caller) : s.Spent count d → t.Spent count d :=
    spent_update htpc (by rw [ht]) (fun h => absurd hpc h) d
  -- The thread passes at the very start, or on its last line in its turn.
  have hself : c = turn s.out.length := by
    rcases hturn with hnil | ⟨-, hturn⟩
    -- The key of the index 0 is that of the first caller.
    · unfold Alternate.key at hkey
      rw [(hs.first hnil).1] at hkey
      rw [hnil]
      cases c with
      | callerA => rfl
      | callerB => exact absurd hkey (by decide)
      | callerC => exact absurd hkey (by decide)
    · exact hturn
  constructor
  · exact hout ▸ hs.alternates
  · rw [hout]
    exact hs.writes htpc hself
  · intro d hd hsig
    rw [hsignal] at hsig
    refine absurd hd (not_not.mpr ?_)
    rcases hturn with hnil | ⟨hlast, -⟩
    · exact absurd hsig ((hs.first hnil).2 d)
    -- Only this thread can have a signal, and it does not wait again.
    · by_contra hd
      rw [(hs.signal d (mt (hspent d) hd) hsig).1, ← hself] at hd
      refine hd (Or.inr ?_)
      rw [htpc, Function.update_self]
      exact ⟨by rw [ht]; exact hlast, by decide, by decide⟩
  · intro d hd hset hp
    rw [ht] at hset
    exact hs.single d (mt (hspent d) hd) hset ((hpassing _).mp hp)
  · intro hnil
    rw [hout] at hnil
    rcases hs.first hnil with ⟨hzero, hnone⟩
    exact ⟨by rw [ht]; exact hzero, fun d hd => hnone d ((hsignal d).mp hd)⟩
  · exact loop_update hs htpc (by rw [ht]) hi
  · intro _
    rw [hout, ← hself, htpc, Function.update_self]
    exact Or.inl rfl

/-- A thread takes its signal. -/
theorem inv_waitOne (hs : Inv count s) (hpc : s.pc c = .waitOne)
    (hset : s.signaled (notifyMapping c).wait = true)
    (ht : t = { s with
      signaled := Function.update s.signaled (notifyMapping c).wait false
      pc := Function.update s.pc c .writeLine }) : Inv count t := by
  have htpc : t.pc = Function.update s.pc c .writeLine := by rw [ht]
  have hout : t.out = s.out := by rw [ht]
  have hi : s.i c < count := hs.loop c (by rw [hpc]; decide)
  -- The thread has a line to print, so its signal is the one of its turn.
  have hwaits : ¬ s.Spent count c := by
    unfold Alternate.Spent
    simp [hpc, hi]
  rcases hs.signal c hwaits (Or.inl hset) with ⟨hself, hnone⟩
  have hpassing := passing_congr htpc (by simp [Alternate.Passing, hpc])
  -- The event resets itself, so no other thread passes the same signal.
  have hsignaled (d : Caller) : t.signaled (notifyMapping d).wait = true →
      d ≠ c ∧ s.signaled (notifyMapping d).wait = true := by
    have htset : t.signaled = Function.update s.signaled (notifyMapping c).wait false := by
      rw [ht]
    intro h
    by_cases hd : d = c
    · rw [hd, htset, Function.update_self] at h
      cases h
    · rw [htset, Function.update_of_ne (fun h => hd ((wait_eq_wait_iff d c).mp h))] at h
      exact ⟨hd, h⟩
  have hspent (d : Caller) : s.Spent count d → t.Spent count d :=
    spent_update htpc (by rw [ht]) (fun _ h => absurd hpc h) d
  have hne : s.out ≠ [] := fun hnil => (hs.first hnil).2 c (Or.inl hset)
  constructor
  · exact hout ▸ hs.alternates
  · rw [hout]
    exact hs.writes htpc hself
  -- A second signal would be for the thread whose turn it is too, and that is this
  -- one.
  · intro d hd hsig
    exfalso
    have hd := mt (hspent d) hd
    rcases hsig with hsig | hsig
    · rcases hsignaled d hsig with ⟨hdc, hsig⟩
      exact hdc ((hs.signal d hd (Or.inl hsig)).1.trans hself.symm)
    · rw [hpassing] at hsig
      have hdc : d = c := (hs.signal d hd (Or.inr hsig)).1.trans hself.symm
      rw [hdc] at hd hsig
      exact hs.single c hd hset hsig
  · intro d hd hset' hp
    exact hs.single d (mt (hspent d) hd) (hsignaled d hset').2 ((hpassing _).mp hp)
  · intro hnil
    rw [hout] at hnil
    exact absurd hnil hne
  · exact loop_update hs htpc (by rw [ht]) hi
  · intro _
    rw [hout, ← hself, htpc, Function.update_self]
    exact Or.inl rfl

/-- A thread writes its line. -/
theorem inv_writeLine (hs : Inv count s) (hpc : s.pc c = .writeLine)
    (ht : t = { s with out := s.out ++ [c], pc := Function.update s.pc c .increment }) :
    Inv count t := by
  have htpc : t.pc = Function.update s.pc c .increment := by rw [ht]
  have hout : t.out = s.out ++ [c] := by rw [ht]
  have hself := hs.writing c hpc
  have hlength : turn t.out.length = c.next := by
    rw [hout, List.length_append, List.length_singleton, turn_succ, ← hself]
  have hi : s.i c < count := hs.loop c (by rw [hpc]; decide)
  have hpassing (d : Caller) : t.Passing d ↔ d = c ∨ s.Passing d := by
    rw [passing_update htpc]
    by_cases hd : d = c
    · simp [hd]
    · simp [hd]
  have hspent (d : Caller) : s.Spent count d → t.Spent count d :=
    spent_update htpc (by rw [ht]) (fun _ _ => by decide) d
  -- While a thread writes, no other that still waits has a signal.
  have hnone (d : Caller) (hd : ¬ t.Spent count d) : ¬ s.Signal d :=
    fun hsig => (hs.signal d (mt (hspent d) hd) hsig).2 c hpc
  have hnew (d : Caller) (hd : ¬ t.Spent count d) (hsig : t.Signal d) : d.previous = c := by
    unfold Alternate.Signal at hsig
    rw [hpassing] at hsig
    rcases hsig with hsig | hsig | hsig
    · rw [ht] at hsig
      exact absurd (Or.inl hsig) (hnone d hd)
    · exact hsig
    · exact absurd (Or.inr hsig) (hnone d hd)
  constructor
  · rw [hout, alternates_append]
    exact ⟨hs.alternates, hself⟩
  · intro d hd
    have hdc : d ≠ c := by
      rintro rfl
      rw [htpc, Function.update_self] at hd
      cases hd
    rw [htpc, Function.update_of_ne hdc] at hd
    exact absurd ((hs.writing d hd).trans hself.symm) hdc
  · intro d hd hsig
    refine ⟨?_, fun e he => ?_⟩
    · rw [hlength, ← hnew d hd hsig, next_previous]
    · have hec : e ≠ c := by
        rintro rfl
        rw [htpc, Function.update_self] at he
        cases he
      rw [htpc, Function.update_of_ne hec] at he
      exact hec ((hs.writing e he).trans hself.symm)
  · intro d hd hset _
    rw [ht] at hset
    exact hnone d hd (Or.inl hset)
  · intro hnil
    rw [hout] at hnil
    exact absurd hnil (List.append_ne_nil_of_right_ne_nil _ (List.cons_ne_nil _ _))
  · exact loop_update hs htpc (by rw [ht]) hi
  · intro _
    rw [hlength]
    refine Or.inr (Or.inr ((hpassing _).mpr (Or.inl ?_)))
    rw [previous_next]

/-- A step that leaves no event behind keeps the invariant. -/
theorem inv_step (hs : Inv count s) (hturn : InTurn count s c) (h : step count s c = some t) :
    Inv count t := by
  rcases step_cases h with ⟨hpc, hi, -, ht⟩ | ⟨hpc, hi, hkey, ht⟩ | ⟨hpc, hset, ht⟩ | ⟨hpc, ht⟩ |
    ⟨hpc, ht⟩ | ⟨hpc, ht⟩
  · exact inv_wait hs hpc hi ht
  · exact inv_key hs hpc hi hkey (hturn hpc hkey) ht
  · exact inv_waitOne hs hpc hset ht
  · exact inv_writeLine hs hpc ht
  · exact inv_increment hs hpc ht
  · exact inv_set hs hpc ht

theorem inv_start (count : Nat) : Inv count start := by
  have hnone (d : Caller) : ¬ start.Signal d := by
    rintro (h | h | h) <;> cases h
  constructor
  · intro k name hname
    cases hname
  · intro d hd
    cases hd
  · exact fun d _ hsig => absurd hsig (hnone d)
  · intro d _ hset
    cases hset
  · exact fun _ => ⟨rfl, hnone⟩
  · exact fun d hd => absurd rfl hd
  · exact fun hne => absurd rfl hne

end

end EventWaitHandleSample

end BlogSample
