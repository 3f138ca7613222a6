import BlogSample.EventWaitHandleSample.Alternate

/-!
# Strict Alternation

The lines come in turn as long as no thread goes ahead of the event that is set
for it. A thread that does so in an iteration after which it waits again can be
passed by that event in its next iteration, and then writes two lines in a row.

## Main definitions

* `Breaks`: The threads can go on to a line out of turn.

## Theorems

* `breaks_of_signal`: A signal out of turn.
* `alternation`: Runs in which no thread goes ahead alternate, and from any step
  with which one does the threads can go on to a line out of turn.
-/

namespace BlogSample

namespace EventWaitHandleSample

open DotNet Transition

instance (count : Nat) (s : Alternate) (c : Caller) : Decidable (InTurn count s c) :=
  inferInstanceAs (Decidable (_ → _ → _))

/-- The threads can go on to a line out of turn. -/
def Breaks (count : Nat) (s : Alternate) : Prop :=
  ∃ as t, System.exec (step count) s as = some t ∧ ¬ Alternates t.out

section

variable {count : Nat} {s t : Alternate} {c : Caller}

theorem Breaks.of_step (h : step count s c = some t) (ht : Breaks count t) : Breaks count s := by
  rcases ht with ⟨as, u, hexec, hu⟩
  refine ⟨c :: as, u, ?_, hu⟩
  rw [System.exec, h]
  exact hexec

/-! ### Single steps -/

theorem step_readIndex (hpc : s.pc c = .readIndex) (hi : s.i c < count) :
    step count s c = some { s with
      pc := Function.update s.pc c (if s.key ≠ c.index then .waitOne else .writeLine) } := by
  unfold step
  rw [hpc]
  exact if_pos hi

theorem step_waitOne (hpc : s.pc c = .waitOne) (hset : s.signaled (notifyMapping c).wait = true) :
    step count s c = some { s with
      signaled := Function.update s.signaled (notifyMapping c).wait false
      pc := Function.update s.pc c .writeLine } := by
  unfold step
  rw [hpc]
  exact if_pos hset

theorem step_writeLine (hpc : s.pc c = .writeLine) :
    step count s c =
      some { s with out := s.out ++ [c], pc := Function.update s.pc c .increment } := by
  unfold step
  rw [hpc]

theorem step_increment (hpc : s.pc c = .increment) :
    step count s c =
      some { s with index := wrap (s.index + 1), pc := Function.update s.pc c .set } := by
  unfold step
  rw [hpc]

theorem step_set (hpc : s.pc c = .set) :
    step count s c = some { s with
      signaled := Function.update s.signaled (notifyMapping c).notify true
      i := Function.update s.i c (s.i c + 1)
      pc := Function.update s.pc c .readIndex } := by
  unfold step
  rw [hpc]

/-! ### A line out of turn -/

/-- A thread that writes out of turn. -/
theorem breaks_of_writeLine (hpc : s.pc c = .writeLine) (hturn : c ≠ turn s.out.length) :
    Breaks count s := by
  refine .of_step (step_writeLine hpc) ⟨[], _, rfl, fun h => hturn ?_⟩
  exact (alternates_append.mp h).2

/-- A thread whose event is set out of turn. -/
theorem breaks_of_signaled (hpc : s.pc c = .readIndex) (hi : s.i c < count)
    (hset : s.signaled (notifyMapping c).wait = true) (hturn : c ≠ turn s.out.length) :
    Breaks count s := by
  refine .of_step (step_readIndex hpc hi) ?_
  by_cases hkey : s.key ≠ c.index
  · rw [if_pos hkey]
    refine .of_step (step_waitOne (Function.update_self ..) hset) ?_
    exact breaks_of_writeLine (Function.update_self ..) hturn
  · rw [if_neg hkey]
    exact breaks_of_writeLine (Function.update_self ..) hturn

/-- A thread whose event is going to be set out of turn. -/
theorem breaks_of_signal (hpc : s.pc c = .readIndex) (hi : s.i c < count) (hsig : s.Signal c)
    (hturn : c ≠ turn s.out.length) : Breaks count s := by
  have hother (p : Pc) : Function.update s.pc c.previous p c = s.pc c :=
    Function.update_of_ne (previous_ne c).symm ..
  have hset {t : Alternate} (ht : t.pc c.previous = .set) (htpc : t.pc c = .readIndex)
      (hti : t.i = s.i) (hout : t.out = s.out) : Breaks count t := by
    refine .of_step (step_set ht) (breaks_of_signaled (c := c) ?_ ?_ ?_ ?_)
    · exact (Function.update_of_ne (previous_ne c).symm ..).trans htpc
    · refine lt_of_eq_of_lt (Function.update_of_ne (previous_ne c).symm ..) ?_
      rw [hti]
      exact hi
    · rw [← (notify_eq_wait_iff c.previous c).mpr rfl]
      exact Function.update_self ..
    · exact hout ▸ hturn
  rcases hsig with hsig | hsig | hsig
  · exact breaks_of_signaled hpc hi hsig hturn
  · refine .of_step (step_increment hsig) (hset (Function.update_self ..) ?_ rfl rfl)
    exact (hother _).trans hpc
  · exact hset hsig hpc rfl rfl

/-- A thread that goes ahead of its signal and waits again. -/
theorem breaks_of_ahead (hpc : s.pc c = .writeLine) (hi : s.i c + 1 < count) (hsig : s.Signal c)
    (hturn : c = turn s.out.length) : Breaks count s := by
  refine .of_step (step_writeLine hpc) (.of_step (step_increment (Function.update_self ..))
    (.of_step (step_set (Function.update_self ..)) (breaks_of_signal (c := c) ?_ ?_ ?_ ?_)))
  · exact Function.update_self ..
  · exact lt_of_eq_of_lt (Function.update_self ..) hi
  -- The signal of this thread is not that of the next one.
  · rcases hsig with hsig | hsig
    · refine Or.inl ((Function.update_of_ne (fun h => ?_) ..).trans hsig)
      exact previous_ne c ((notify_eq_wait_iff c c).mp h.symm).symm
    · right
      unfold Alternate.Passing at *
      simp only [Function.update_of_ne (previous_ne c)]
      exact hsig
  · rw [List.length_append, List.length_singleton, turn_succ, ← hturn]
    intro h
    exact previous_ne c (by rw [h, previous_next, ← h])

/-- A step ahead of a signal can be followed by a line out of turn. -/
theorem breaks_of_not_inTurn (hs : Inv count s) (h : step count s c = some t)
    (hturn : ¬ InTurn count s c) : Breaks count t := by
  unfold InTurn at hturn
  rw [Classical.not_imp, Classical.not_imp, not_or] at hturn
  rcases hturn with ⟨hpc, hkey, hne, hlast⟩
  -- The thread passes without waiting, since the key is its own by chance.
  have hi : s.i c < count := by
    by_contra hi
    unfold step at h
    simp [hpc, hi] at h
  rw [step_readIndex hpc hi, if_neg (not_not.mpr hkey), Option.some.injEq] at h
  have htpc : t.pc = Function.update s.pc c .writeLine := by rw [← h]
  have hwrite : t.pc c = .writeLine := by rw [htpc, Function.update_self]
  have hout : t.out = s.out := by rw [← h]
  by_cases hself : c = turn s.out.length
  -- It is its turn, but its signal is still there and lets it pass once more.
  · have hmore : s.i c + 1 ≠ count := fun hi => hlast ⟨hi, hself⟩
    refine breaks_of_ahead hwrite ?_ ?_ (by rw [hout]; exact hself)
    · rw [← h]
      change s.i c + 1 < count
      omega
    · rcases hs.token hne with htoken | htoken
      · rw [← hself, hpc] at htoken
        cases htoken
      · rw [← hself] at htoken
        unfold Alternate.Signal Alternate.Passing at *
        rw [htpc, Function.update_of_ne (previous_ne c), ← h]
        exact htoken
  · exact breaks_of_writeLine hwrite (by rw [hout]; exact hself)

/-- The invariant of runs in which no thread goes ahead. -/
theorem inv_of_run {steps : List (Alternate × Caller)} (h : (threads count).Run start steps s)
    (hturn : ∀ p ∈ steps, InTurn count p.1 p.2) : Inv count s := by
  have hreach := (h.restrict hturn).reachable rfl
  refine hreach.invariant (Inv count) ?_ ?_
  · rintro s rfl
    exact inv_start count
  · exact fun s c t hs hstep => inv_step hs hstep.1 hstep.2

end

/-- For any number of iterations, every run in which no thread goes ahead of its
    signal alternates, and every run up to a step with which a thread goes ahead
    can be continued to a line out of turn. -/
theorem alternation (count : Nat) :
    (∀ steps s, (threads count).Run start steps s → (∀ p ∈ steps, InTurn count p.1 p.2) →
      Alternates s.out) ∧
    ∀ steps s c t, (threads count).Run start steps s → (∀ p ∈ steps, InTurn count p.1 p.2) →
      step count s c = some t → ¬ InTurn count s c →
        ∃ more u, (threads count).Run start (steps ++ (s, c) :: more) u ∧ ¬ Alternates u.out := by
  constructor
  · intro steps s hrun hturn
    exact (inv_of_run hrun hturn).alternates
  · intro steps s c t hrun hturn hstep hnot
    rcases breaks_of_not_inTurn (inv_of_run hrun hturn) hstep hnot with ⟨as, u, hexec, hu⟩
    rcases System.Run.exec as (.snoc steps s c t hrun hstep) hexec with ⟨more, hmore⟩
    refine ⟨more, u, ?_, hu⟩
    rw [List.append_assoc] at hmore
    exact hmore

/-- Three lines in turn, where each thread waits for its signal. -/
theorem alternation_round : ∃ steps s, (threads 20).Run start steps s ∧
    (∀ p ∈ steps, InTurn 20 p.1 p.2) ∧ Alternates s.out ∧
      s.out = [.callerA, .callerB, .callerC] := by
  rcases System.exists_exec (System.guarded (fun s c => decide (InTurn 20 s c)) (step 20)) start
    ([.callerB, .callerC] ++ List.replicate 4 .callerA ++ List.replicate 4 .callerB ++
      List.replicate 4 .callerC)
    (fun s => decide (s.out = [.callerA, .callerB, .callerC])) (by decide) with ⟨s, hexec, hout⟩
  rcases System.Run.of_guarded _ (.nil : (threads 20).Run start [] start)
    (fun _ hp => absurd hp List.not_mem_nil) hexec with ⟨steps, hrun, htest⟩
  have hturn : ∀ p ∈ steps, InTurn 20 p.1 p.2 := fun p hp => of_decide_eq_true (htest p hp)
  exact ⟨steps, s, hrun, hturn, (alternation 20).1 steps s hrun hturn, of_decide_eq_true hout⟩

/-- The second thread goes ahead of its signal and writes twice. -/
theorem alternation_overtaken : ∃ steps s, (threads 20).Run start steps s ∧
    ¬ Alternates s.out := by
  rcases System.exists_exec (step 20) start
    (List.replicate 3 .callerA ++ List.replicate 5 .callerB ++ [.callerA] ++
      List.replicate 2 .callerB)
    (fun s => decide (s.out = [.callerA, .callerB, .callerB])) (by decide) with ⟨s, hexec, hout⟩
  rcases System.Run.exec _ (.nil : (threads 20).Run start [] start) hexec with ⟨more, hrun⟩
  refine ⟨_, s, hrun, fun h => ?_⟩
  rw [of_decide_eq_true hout] at h
  exact absurd (h 2 'B' rfl) (by decide)

end EventWaitHandleSample

end BlogSample
