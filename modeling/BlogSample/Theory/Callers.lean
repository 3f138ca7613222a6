import BlogSample.Theory.Monitor
import Mathlib.Data.List.Forall2

/-!
# Callers of a Monitor

A monitor is specified for threads that make any calls in any order. Real
threads make particular calls, each depending on what the last one returned,
and some stop. What holds of the monitor whoever calls it holds of them too: a
run of theirs is a run of the monitor, if one looks at where the threads are
with respect to the lock and not at what they do outside.

## Main definitions

* `Program.callers`: The methods of a program, called by given threads.
* `Alike`: Two threads are at the same place with respect to the lock.

## Theorems

* `callers_refines`: What callers reach stands for what the program reaches.
* `Alike.tally_eq`: Threads that are alike are counted alike.
-/

namespace BlogSample

namespace Monitor

open Transition

universe u v w

variable {σ : Type u} {ω ω' : Type v} {κ : Type w}

/-- A stretch whose thread goes on elsewhere. -/
def Stretch.map (f : ω → ω') (stretch : Stretch σ ω) : Stretch σ ω' where
  shared := stretch.shared
  signal := stretch.signal
  next :=
    match stretch.next with
    | .waits => .waits
    | .leaves o => .leaves (f o)

/-- The methods of a program, called by threads that go on with what a call
    returns. They do nothing that is shared outside. -/
def Program.callers (P : Program σ ω κ) (calls : ω' → κ → Bool) (after : κ → ω → ω') :
    Program σ ω' κ where
  calls := calls
  block := fun k entry shared => (P.block k entry shared).map (after k)
  timed := P.timed
  act := fun _ _ => none

/-- Two threads are at the same place with respect to the lock. -/
inductive Alike : Thread ω' κ → Thread ω κ → Prop
  | outside (o' : ω') (o : ω) : Alike (.outside o') (.outside o)
  | entering (k : κ) : Alike (.entering k) (.entering k)
  | waiting (k : κ) : Alike (.waiting k) (.waiting k)
  | ready (k : κ) (pulsed : Bool) : Alike (.ready k pulsed) (.ready k pulsed)

/-- What a signal may do it can do. -/
theorem sent_send {threads woken : List (Thread ω κ)} {choice : Nat} {signal : Signal}
    (h : Sent threads choice signal woken) : signal.send choice threads = some woken := by
  cases h with
  | silent => rfl
  | pulseAll => rfl
  | pulse hchoice => simp only [Signal.send, hchoice]
  | nobody hnobody =>
      have hany : threads.any Thread.isWaiting = false :=
        List.any_eq_false.mpr (fun thread hthread => by
          rw [hnobody thread hthread]
          exact Bool.false_ne_true)
      simp only [Signal.send]
      split
      · next k hk => exact absurd (hnobody _ (List.mem_of_getElem? hk)) Bool.noConfusion
      · rw [hany]
        rfl

section Signals

variable {threads woken : List (Thread ω κ)} {choice : Nat} {signal : Signal}

/-- A signal does not change how threads weigh that weigh the same when they
    are woken. -/
theorem Sent.tally_eq {f : Thread ω κ → Nat} (hf : ∀ thread, f thread.wake = f thread)
    (h : Sent threads choice signal woken) : tally f woken = tally f threads := by
  cases h with
  | silent => rfl
  | nobody _ => rfl
  | @pulse k hchoice =>
      have hset := tally_set f (.ready k true) hchoice
      have hsame : f (.ready k true) = f (.waiting k) := hf (.waiting k)
      omega
  | pulseAll =>
      induction threads with
      | nil => rfl
      | cons thread threads ih => rw [List.map_cons, tally_cons, tally_cons, hf, ih]

/-- A pulse makes one thread heavier. -/
theorem Sent.pulse_tally_le {f : Thread ω κ → Nat} (hf : ∀ thread, f thread.wake ≤ f thread + 1)
    (h : Sent threads choice .pulse woken) : tally f woken ≤ tally f threads + 1 := by
  cases h with
  | nobody _ => exact Nat.le_succ _
  | @pulse k hchoice =>
      have hset := tally_set f (.ready k true) hchoice
      have hone : f (.ready k true) ≤ f (.waiting k) + 1 := hf (.waiting k)
      omega

theorem tally_wake_le {f : Thread ω κ → Nat} (hf : ∀ thread, f thread.wake ≤ f thread + 1)
    (threads : List (Thread ω κ)) :
    tally f (threads.map Thread.wake) ≤ tally f threads + threads.length := by
  induction threads with
  | nil => exact Nat.le_refl 0
  | cons thread threads ih =>
      have hthread := hf thread
      rw [List.map_cons, tally_cons, tally_cons, List.length_cons]
      omega

/-- What holds of threads that are woken holds after a signal. -/
theorem Sent.forall {p : Thread ω κ → Prop} (hp : ∀ thread, p thread → p thread.wake)
    (h : Sent threads choice signal woken) (hall : ∀ thread ∈ threads, p thread) :
    ∀ thread ∈ woken, p thread := by
  intro thread hthread
  cases h with
  | silent => exact hall thread hthread
  | nobody _ => exact hall thread hthread
  | @pulse k hchoice =>
      rcases List.mem_or_eq_of_mem_set hthread with hthread | rfl
      · exact hall thread hthread
      · exact hp _ (hall _ (List.mem_of_getElem? hchoice))
  | pulseAll =>
      rcases List.mem_map.mp hthread with ⟨sleeper, hsleeper, rfl⟩
      exact hp sleeper (hall sleeper hsleeper)

theorem Sent.length_eq (h : Sent threads choice signal woken) : woken.length = threads.length := by
  cases h with
  | silent => rfl
  | nobody _ => rfl
  | pulse hchoice => exact List.length_set
  | pulseAll => exact List.length_map Thread.wake

end Signals

section Lists

variable {l : List (Thread ω' κ)} {m : List (Thread ω κ)}

theorem Alike.getElem? (h : List.Forall₂ Alike l m) {th : Nat} {thread : Thread ω' κ}
    (hthread : l[th]? = some thread) : ∃ thread', m[th]? = some thread' ∧ Alike thread thread' := by
  induction h generalizing th with
  | nil => cases hthread
  | @cons a b l m hab _ ih =>
      cases th with
      | zero =>
          rw [List.getElem?_cons_zero, Option.some.injEq] at hthread
          subst hthread
          exact ⟨b, rfl, hab⟩
      | succ th =>
          rw [List.getElem?_cons_succ] at hthread
          rcases ih hthread with ⟨thread', hm, halike⟩
          exact ⟨thread', by rw [List.getElem?_cons_succ]; exact hm, halike⟩

theorem Alike.set (h : List.Forall₂ Alike l m) (th : Nat) {thread : Thread ω' κ}
    {thread' : Thread ω κ} (hthread : Alike thread thread') :
    List.Forall₂ Alike (l.set th thread) (m.set th thread') := by
  induction h generalizing th with
  | nil => exact .nil
  | cons hab hrest ih =>
      cases th with
      | zero => exact .cons hthread hrest
      | succ th => exact .cons hab (ih th)

theorem Alike.wake {a : Thread ω' κ} {b : Thread ω κ} (h : Alike a b) : Alike a.wake b.wake := by
  cases h with
  | outside o' o => exact .outside o' o
  | entering k => exact .entering k
  | waiting k => exact .ready k true
  | ready k pulsed => exact .ready k pulsed

theorem Alike.isWaiting {a : Thread ω' κ} {b : Thread ω κ} (h : Alike a b) :
    b.isWaiting = a.isWaiting := by
  cases h <;> rfl

theorem Alike.turn {a : Thread ω' κ} {b : Thread ω κ} (h : Alike a b) : b.turn = a.turn := by
  cases h <;> rfl

theorem Alike.any_isWaiting (h : List.Forall₂ Alike l m) :
    m.any Thread.isWaiting = l.any Thread.isWaiting := by
  induction h with
  | nil => rfl
  | cons hab _ ih => rw [List.any_cons, List.any_cons, hab.isWaiting, ih]

/-- A signal does the same to threads that are alike. -/
theorem Alike.send (h : List.Forall₂ Alike l m) {signal : Signal} {choice : Nat}
    {woken : List (Thread ω' κ)} (hsend : signal.send choice l = some woken) :
    ∃ woken', signal.send choice m = some woken' ∧ List.Forall₂ Alike woken woken' := by
  cases signal with
  | silent =>
      cases hsend
      exact ⟨m, rfl, h⟩
  | pulseAll =>
      cases hsend
      refine ⟨m.map Thread.wake, rfl, ?_⟩
      rw [List.forall₂_map_left_iff, List.forall₂_map_right_iff]
      exact h.imp (fun _ _ hab => hab.wake)
  | pulse =>
      cases send_sent hsend with
      | nobody hnone =>
          -- Nobody waits in one list or in the other.
          have hany : m.any Thread.isWaiting = false := by
            rw [Alike.any_isWaiting h, List.any_eq_false]
            exact fun thread hthread => by rw [hnone thread hthread]; exact Bool.false_ne_true
          refine ⟨m, sent_send (.nobody (fun thread hthread => ?_)), h⟩
          exact Bool.eq_false_iff.mpr (List.any_eq_false.mp hany thread hthread)
      | @pulse k hchoice =>
          rcases Alike.getElem? h hchoice with ⟨thread', hm, halike⟩
          cases halike
          exact ⟨m.set choice (.ready k true), by simp only [Signal.send, hm],
            Alike.set h choice (.ready k true)⟩

/-- Threads that are alike are counted alike. -/
theorem Alike.tally_eq (h : List.Forall₂ Alike l m) {f : Thread ω' κ → Nat} {g : Thread ω κ → Nat}
    (hfg : ∀ a b, Alike a b → f a = g b) : tally f l = tally g m := by
  induction h with
  | nil => rfl
  | cons hab _ ih => rw [tally_cons, tally_cons, hfg _ _ hab, ih]

theorem Alike.waiting_eq (h : List.Forall₂ Alike l m) (p : κ → Bool) :
    tally (Thread.waitingAs p) l = tally (Thread.waitingAs p) m :=
  Alike.tally_eq h (fun a b hab => by cases hab <;> rfl)

theorem Alike.pulsed_eq (h : List.Forall₂ Alike l m) (p : κ → Bool) :
    tally (Thread.pulsedAs p) l = tally (Thread.pulsedAs p) m := by
  refine Alike.tally_eq h (fun a b hab => ?_)
  cases hab with
  | ready k pulsed => cases pulsed <;> rfl
  | outside o' o => rfl
  | entering k => rfl
  | waiting k => rfl

end Lists

variable {P : Program σ ω κ} {calls : ω' → κ → Bool} {after : κ → ω → ω'}

/-- A state of callers stands for one of the program. -/
def Stands (s : State σ ω' κ) (t : State σ ω κ) : Prop :=
  s.shared = t.shared ∧ List.Forall₂ Alike s.threads t.threads

/-- The program makes the steps of its callers, if it may be called from
    anywhere. -/
theorem callers_step (hfree : ∀ o k, P.calls o k = true) {s s' : State σ ω' κ} {t : State σ ω κ}
    {a : Label κ} (h : Stands s t) (hstep : step (P.callers calls after) s a = some s') :
    ∃ t', step P t a = some t' ∧ Stands s' t' := by
  rcases h with ⟨hshared, hthreads⟩
  cases a with
  -- A call that `calls` allows is one that anybody may make.
  | call th k =>
      cases step_moves hstep with
      | call hthread _ =>
          rcases Alike.getElem? hthreads hthread with ⟨thread', hm, halike⟩
          cases halike with
          | outside _ o =>
              refine ⟨t.setThread th (.entering k), ?_, hshared,
                Alike.set hthreads th (.entering k)⟩
              simp only [step, hm, hfree, if_true]
  | run th choice =>
      simp only [step, Option.bind_eq_some_iff, Option.map_eq_some_iff] at hstep
      rcases hstep with ⟨⟨k, entry⟩, ⟨thread, hthread, hturn⟩, woken, hsend, hs'⟩
      rcases Alike.getElem? hthreads hthread with ⟨thread', hm, halike⟩
      have hturn' := halike.turn.trans hturn
      change (P.block k entry s.shared).signal.send choice s.threads = some woken at hsend
      rw [hshared] at hsend
      -- The threads are alike, so the same ones wait and the same one is woken.
      rcases Alike.send hthreads hsend with ⟨woken', hsend', hwoken⟩
      refine ⟨_, by simp only [step, hm, Option.bind_some, hturn', hsend', Option.map_some]; rfl,
        ?_⟩
      rw [← hs']
      refine ⟨?_, Alike.set hwoken th ?_⟩
      · change (P.block k entry s.shared).shared = (P.block k entry t.shared).shared
        rw [hshared]
      · change Alike (((P.block k entry s.shared).map (after k)).next.thread k) _
        rw [hshared]
        -- Where the thread goes on is all that `after` adds.
        unfold Stretch.map
        cases (P.block k entry t.shared).next with
        | waits => exact .waiting k
        | leaves o => exact .outside (after k o) o
  | expire th =>
      cases step_moves hstep with
      | @expire _ k hthread htimed =>
          rcases Alike.getElem? hthreads hthread with ⟨thread', hm, halike⟩
          cases halike
          refine ⟨t.setThread th (.ready k false), ?_, hshared,
            Alike.set hthreads th (.ready k false)⟩
          have htimed : P.timed k = true := htimed
          simp only [step, hm, htimed, if_true]
  | act th =>
      cases step_moves hstep with
      | act _ hact => cases hact

/-- What callers reach stands for what the program reaches. -/
theorem callers_refines (hfree : ∀ o k, P.calls o k = true) {init : State σ ω' κ → Prop}
    {shared : σ} {o : ω}
    (hinit : ∀ s, init s → s.shared = shared ∧ ∀ thread ∈ s.threads, ∃ o', thread = .outside o')
    {s : State σ ω' κ} (h : (System.ofFn init (step (P.callers calls after))).Reachable s) :
    ∃ t, (system P shared o).Reachable t ∧ Stands s t := by
  refine h.refines Stands (fun s hs => ?_) (fun s t a s' hst hstep => callers_step hfree hst hstep)
  rcases hinit s hs with ⟨hshared, houtside⟩
  refine ⟨⟨shared, s.threads.map (fun _ => .outside o)⟩, ⟨rfl, fun thread hthread => ?_⟩,
    hshared, ?_⟩
  · rcases List.mem_map.mp hthread with ⟨_, -, rfl⟩
    rfl
  · rw [List.forall₂_map_right_iff, List.forall₂_same]
    intro thread hthread
    rcases houtside thread hthread with ⟨o', rfl⟩
    exact .outside o' o

end Monitor

end BlogSample
