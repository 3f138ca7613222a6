import BlogSample.ReadWriteLock.LeaseSafety
import Mathlib.Algebra.Order.BigOperators.Group.Finset
import Mathlib.Data.Fintype.Basic

/-!
# Tasks with a Lock

The tasks that `Main` starts, each with a lock object of its own: it calls
`TryLock`, sleeps, calls `UnLock` and has ended. `Main` starts thirty, two
readers for each writer; here there are any number of either.

`TryLock` calls `Acquire` until it succeeds, with a sleep in between that may
take any time. A sleep after it takes at least its time, and may take longer
than the lease: then the lock passes on although the task has not released it.
So two tasks of which one is a writer may well be between `TryLock` and
`UnLock`, but only when a lease is over.

Whatever happens, all tasks can end, since every lease does, as long as the
clock has not come near the end of what `PEXPIRE` takes; and when they have,
the lock is free, no matter who released it in vain.

## Main definitions

* `leaseTime`, `sleepTime`: What `Main` asks for.
* `Stage`, `Tasks`, `Event`: The tasks and their steps.
* `tasks`: Their runs.
* `Tasks.Inv`: What a task has done at each stage.

## Theorems

* `reachable_inv`: The invariant holds.
* `section_exclusive`: Who can be between `TryLock` and `UnLock`.
* `ends_free`: All tasks can end, and the lock is free then.
-/

namespace BlogSample

namespace ReadWriteLock

open Redis Server Transition

variable {σ ι : Type}

/-- The argument of `TryLock` in seconds: 10 for a reader, 5 for a writer. -/
def leaseTime : Kind → Int
  | .read => 10
  | .write => 5

/-- How long a task that has the lock sleeps, in milliseconds. -/
def sleepTime : Kind → Int
  | .read => 5000
  | .write => 2000

/-- Where a task is: in the loop of `TryLock`, behind it since some time, or
    behind `UnLock`. -/
inductive Stage
  | tryLock
  | sleep (since : Int)
  | ended
  deriving DecidableEq

/-- The server with the lock objects, and where their tasks are. -/
structure Tasks (σ ι : Type) where
  locks : State σ ι
  stage : ι → Stage

/-- A task calls `Acquire` or `UnLock`, or some time passes. -/
inductive Event (ι : Type)
  | acquire (i : ι)
  | unLock (i : ι)
  | wait (d : Nat)

variable [Server σ]

/-- The clock of the server. -/
def Tasks.now (s : Tasks σ ι) : Int := (keyspace s.locks.server).time

variable [DecidableEq ι]

/-- One step. A task calls `UnLock` when it has slept for its time or
    longer. -/
def Tasks.step (O : Objects ι) (s : Tasks σ ι) : Event ι → Option (Tasks σ ι)
  | .acquire i =>
      if s.stage i = .tryLock then
        let ttl := (O.tryInnerLock i (leaseTime (O.kind i)) s.locks.server).1
        (next O s.locks (.lock i (leaseTime (O.kind i)))).map (fun locks =>
          { locks := locks
            stage :=
              if ttl = none then Function.update s.stage i (.sleep s.now) else s.stage })
      else none
  | .unLock i =>
      match s.stage i with
      | .sleep since =>
          if since + sleepTime (O.kind i) ≤ s.now then
            (next O s.locks (.unlock i)).map (fun locks =>
              { locks := locks, stage := Function.update s.stage i .ended })
          else none
      | _ => none
  | .wait d => (next O s.locks (.wait d)).map (fun locks => { s with locks := locks })

/-- `Main` has started the tasks. -/
def Tasks.start (server : σ) : Tasks σ ι := ⟨State.start server, fun _ => .tryLock⟩

/-- The runs of the tasks. -/
def tasks (O : Objects ι) : System (Tasks σ ι) (Event ι) :=
  System.ofFn (fun s => ∃ server now, keyspace server = Keyspace.empty now ∧
    s = Tasks.start server) (Tasks.step O)

/-- What a task has done at a stage. -/
def Stage.Done (kind : Kind) (acquires unlocks releases : Nat) (leaseEnd now : Int) :
    Stage → Prop
  | .tryLock => acquires = 0 ∧ unlocks = 0 ∧ releases = 0
  | .sleep since => acquires = 1 ∧ unlocks = 0 ∧ releases = 0 ∧
      leaseEnd = since + 1000 * leaseTime kind ∧ since ≤ now
  | .ended => acquires = 1 ∧ unlocks = 1

/-- What a task has done, by the record of the run. -/
def Tasks.Done (O : Objects ι) (s : Tasks σ ι) (i : ι) : Prop :=
  (s.stage i).Done (O.kind i) (s.locks.history.acquires i) (s.locks.history.unlocks i)
    (s.locks.history.releases i) (s.locks.history.leaseEnd i) s.now

/-- The lock objects have made the calls of their tasks, none of which puts a
    lease at risk, and only who is behind `TryLock` can hold the lock. -/
structure Tasks.Inv (O : Objects ι) (s : Tasks σ ι) : Prop where
  reachable : ((ReadWriteLock.locks O).restrict (KeepsLease O)).Reachable s.locks
  done : ∀ i, s.Done O i
  count : ∀ i, count O s.locks.server i + s.locks.history.unlocks i ≤
    s.locks.history.acquires i

theorem toMillisecond_leaseTime (kind : Kind) :
    toMillisecond (leaseTime kind) = 1000 * leaseTime kind := by
  cases kind <;> decide

namespace Session

variable {kind : ι → Kind} {a : Session kind}

/-- Nobody holds the lock more often than it has acquired it and not called
    `UnLock`. -/
def Counted (a : Session kind) : Prop :=
  ∀ i, a.table.count i + a.history.unlocks i ≤ a.history.acquires i

theorem Counted.lock (h : a.Counted) (i : ι) {timeout : Int} (hms : 0 < toMillisecond timeout) :
    (a.step (.lock i timeout)).Counted := by
  intro j
  have hj := h j
  by_cases ha : a.table.Admits i
  · have hend := a.table.add_le_newEnd i (toMillisecond timeout)
    have hcount := Table.count_acquire ha (by
      exact Int.lt_of_lt_of_le (Int.lt_add_of_pos_right _ hms) hend)
    simp only [step, if_pos ha, History.acquired, hcount]
    by_cases hji : j = i
    · subst hji
      rw [Function.update_self, Function.update_self]
      omega
    · rw [Function.update_of_ne hji, Function.update_of_ne hji]
      exact hj
  · simp only [step, if_neg ha, Table.acquire_of_not_admits ha]
    exact hj

theorem Counted.unlock (h : a.Counted) {i : ι} (hacquires : a.history.acquires i = 1)
    (hunlocks : a.history.unlocks i = 0) : (a.step (.unlock i)).Counted := by
  intro j
  have hi := h i
  have hj := h j
  simp only [step, History.released]
  by_cases hji : j = i
  · subst hji
    rw [Table.count_release (fun _ hmore => by omega), Function.update_self, Function.update_self]
    omega
  · rw [Table.count_release_of_ne hji, Function.update_of_ne hji]
    exact hj

theorem Counted.wait (h : a.Counted) (d : Nat) : (a.step (.wait d)).Counted := fun j =>
  (Nat.add_le_add_right (a.table.count_wait_le d j) _).trans (h j)

end Session

section Invariant

variable [LawfulServer σ] {O : Objects ι} {s t : Tasks σ ι}

theorem leaseTime_pos (kind : Kind) : 0 < toMillisecond (leaseTime kind) := by
  rw [toMillisecond_leaseTime]
  cases kind <;> decide

/-- A session that stands for the lock objects. -/
theorem Tasks.Inv.exists_session (h : s.Inv O) : ∃ a : Session O.kind,
    a.Guarded ∧ Simulates O s.locks a ∧ a.Counted := by
  rcases exists_session_restrict keepsLease_session h.reachable with ⟨a, ha, hsim⟩
  refine ⟨a, guarded ha, hsim, fun i => ?_⟩
  have hcount := h.count i
  rw [hsim.server.count_eq, hsim.history] at hcount
  omega

omit [DecidableEq ι] in
/-- What is counted in a session is counted by the code. -/
theorem Simulates.counted {l : State σ ι} {a : Session O.kind} (hsim : Simulates O l a)
    (h : a.Counted) (i : ι) :
    ReadWriteLock.count O l.server i + l.history.unlocks i ≤ l.history.acquires i := by
  have hi := h i
  rw [hsim.server.count_eq, hsim.history]
  omega

/-- A call takes no time. -/
theorem time_next {l l' : State σ ι} {a : Session O.kind} (hsim : Simulates O l a) {x : Action ι}
    (hst : next O l x = some l') :
    (keyspace l'.server).time = (a.step x).table.now ∧ (keyspace l.server).time = a.table.now :=
  ⟨(next_simulates hsim hst).server.time, hsim.server.time⟩

theorem time_lock {l l' : State σ ι} {a : Session O.kind} (hsim : Simulates O l a) {i : ι}
    {timeout : Int} (hst : next O l (.lock i timeout) = some l') :
    (keyspace l'.server).time = (keyspace l.server).time := by
  rw [(time_next hsim hst).1, (time_next hsim hst).2]
  exact Table.now_acquire _ _ _

theorem time_unlock {l l' : State σ ι} {a : Session O.kind} (hsim : Simulates O l a) {i : ι}
    (hst : next O l (.unlock i) = some l') :
    (keyspace l'.server).time = (keyspace l.server).time := by
  rw [(time_next hsim hst).1, (time_next hsim hst).2]
  exact Table.now_release _ _ _

theorem time_wait {l l' : State σ ι} {a : Session O.kind} (hsim : Simulates O l a) {d : Nat}
    (hst : next O l (.wait d) = some l') :
    (keyspace l'.server).time = (keyspace l.server).time + d := by
  rw [(time_next hsim hst).1, (time_next hsim hst).2]
  rfl

theorem Tasks.Inv.acquire (h : s.Inv O) {i : ι}
    (hst : s.step O (.acquire i) = some t) : t.Inv O := by
  rcases h.exists_session with ⟨a, -, hsim, hcounted⟩
  simp only [Tasks.step] at hst
  by_cases htry : s.stage i = .tryLock
  · rw [if_pos htry, Option.map_eq_some_iff] at hst
    rcases hst with ⟨l, hl, rfl⟩
    -- The times of `Main` are whole seconds within range.
    have hok : KeepsLease O s.locks (.lock i (leaseTime (O.kind i))) :=
      toMillisecond_leaseTime (O.kind i)
    have hsim' := next_simulates hsim hl
    have hcounted' := hcounted.lock i (leaseTime_pos (O.kind i))
    refine ⟨.step _ _ _ h.reachable ⟨hok, hl⟩, fun j => ?_, hsim'.counted hcounted'⟩
    have hdone := h.done j
    have htime := time_lock hsim hl
    rw [← (next_eq_some_iff.mp hl).2] at htime ⊢
    unfold Tasks.Done Tasks.now at hdone ⊢
    rw [htime]
    -- `null` is what the script returns to the new holder.
    by_cases hnull : (O.tryInnerLock i (leaseTime (O.kind i)) s.locks.server).1 = none
    · simp only [ReadWriteLock.step, hnull, if_true, History.acquired]
      by_cases hji : j = i
      · subst hji
        rw [htry] at hdone
        rw [Function.update_self, Function.update_self, Function.update_self, hdone.1]
        exact ⟨rfl, hdone.2.1, hdone.2.2, rfl, Int.le_refl _⟩
      · rw [Function.update_of_ne hji, Function.update_of_ne hji, Function.update_of_ne hji]
        exact hdone
    · simp only [ReadWriteLock.step, if_neg hnull]
      exact hdone
  · rw [if_neg htry] at hst
    cases hst

theorem Tasks.Inv.unLock (h : s.Inv O) {i : ι}
    (hst : s.step O (.unLock i) = some t) : t.Inv O := by
  rcases h.exists_session with ⟨a, -, hsim, hcounted⟩
  have hi := h.done i
  unfold Tasks.Done at hi
  simp only [Tasks.step] at hst
  cases hstage : s.stage i with
  | tryLock =>
      rw [hstage] at hst
      cases hst
  | ended =>
      rw [hstage] at hst
      cases hst
  | sleep since =>
      rw [hstage] at hst hi
      rcases hi with ⟨hacquires, hunlocks, hreleases, -⟩
      simp only at hst
      by_cases htime : since + sleepTime (O.kind i) ≤ s.now
      · rw [if_pos htime, Option.map_eq_some_iff] at hst
        rcases hst with ⟨l, hl, rfl⟩
        -- The task has acquired once, so this is its last release.
        have hok : KeepsLease O s.locks (.unlock i) := .inl (by omega)
        have hsim' := next_simulates hsim hl
        have hcounted' := hcounted.unlock (i := i) (by rw [← hsim.history, hacquires])
          (by rw [← hsim.history, hunlocks])
        have hnow := time_unlock hsim hl
        refine ⟨.step _ _ _ h.reachable ⟨hok, hl⟩, fun j => ?_, hsim'.counted hcounted'⟩
        have hdone := h.done j
        rw [← (next_eq_some_iff.mp hl).2] at hnow ⊢
        unfold Tasks.Done Tasks.now at hdone ⊢
        rw [hnow]
        simp only [ReadWriteLock.step, History.released]
        by_cases hji : j = i
        · subst hji
          rw [Function.update_self, Function.update_self, hunlocks]
          exact ⟨hacquires, rfl⟩
        · rw [Function.update_of_ne hji, Function.update_of_ne hji]
          split_ifs
          · rw [Function.update_of_ne hji]
            exact hdone
          · exact hdone
      · rw [if_neg htime] at hst
        cases hst

/-- Time adds nothing to what a task has done. -/
theorem Stage.Done.later {kind : Kind} {acquires unlocks releases : Nat} {leaseEnd now now' : Int}
    {stage : Stage} (h : stage.Done kind acquires unlocks releases leaseEnd now)
    (hle : now ≤ now') : stage.Done kind acquires unlocks releases leaseEnd now' := by
  cases stage with
  | tryLock => exact h
  | sleep since => exact ⟨h.1, h.2.1, h.2.2.1, h.2.2.2.1, h.2.2.2.2.trans hle⟩
  | ended => exact h

theorem Tasks.Inv.wait (h : s.Inv O) {d : Nat}
    (hst : s.step O (.wait d) = some t) : t.Inv O := by
  rcases h.exists_session with ⟨a, -, hsim, hcounted⟩
  rw [Tasks.step, Option.map_eq_some_iff] at hst
  rcases hst with ⟨l, hl, rfl⟩
  have hok : KeepsLease O s.locks (.wait d) := trivial
  refine ⟨.step _ _ _ h.reachable ⟨hok, hl⟩, fun j => ?_,
    (next_simulates hsim hl).counted (hcounted.wait d)⟩
  have hnow := time_wait hsim hl
  rw [← (next_eq_some_iff.mp hl).2] at hnow ⊢
  refine (h.done j).later ?_
  change s.now ≤ (keyspace _).time
  rw [hnow]
  exact Int.le_add_of_nonneg_right (Int.natCast_nonneg d)

theorem start_inv {server : σ} {now : Int} (hempty : keyspace server = Keyspace.empty now) :
    (Tasks.start server : Tasks σ ι).Inv O := by
  refine ⟨.init _ ⟨server, now, hempty, rfl⟩, fun i => ⟨rfl, rfl, rfl⟩, fun i => ?_⟩
  rw [show (Tasks.start server : Tasks σ ι).locks = State.start server from rfl,
    (start_simulates O hempty).server.count_eq, Table.count_of_none rfl]
  exact Int.le_refl 0

/-- The invariant holds. -/
theorem reachable_inv (h : (tasks O).Reachable s) : s.Inv O := by
  refine h.invariant (Tasks.Inv O) ?_ ?_
  · rintro s ⟨server, now, hempty, rfl⟩
    exact start_inv hempty
  · intro s e t hs hst
    cases e with
    | acquire i => exact hs.acquire hst
    | unLock i => exact hs.unLock hst
    | wait d => exact hs.wait hst

end Invariant

/-! ### Sections -/

section Sections

variable [LawfulServer σ] {O : Objects ι} {s : Tasks σ ι}

omit [LawfulServer σ] in
/-- A task whose lease is not over holds the lock by its own reckoning. -/
theorem Tasks.Inv.protected (h : s.Inv O) {i : ι} {since : Int}
    (hstage : s.stage i = .sleep since)
    (hlive : s.now < since + 1000 * leaseTime (O.kind i)) : Protected s.locks i := by
  have hdone := h.done i
  unfold Tasks.Done at hdone
  rw [hstage] at hdone
  rcases hdone with ⟨hacquires, -, hreleases, hend, -⟩
  exact ⟨by rw [hacquires, hreleases]; exact Nat.one_pos, by rw [hend]; exact hlive⟩

/-- Two tasks one of which is a writer are not both between `TryLock` and
    `UnLock`, unless one of their leases is over. -/
theorem section_exclusive (h : (tasks O).Reachable s) {i j : ι} (hconflicts : Conflicts O i j)
    {since since' : Int} (hi : s.stage i = .sleep since) (hj : s.stage j = .sleep since') :
    since + 1000 * leaseTime (O.kind i) ≤ s.now ∨
      since' + 1000 * leaseTime (O.kind j) ≤ s.now := by
  have hinv := reachable_inv h
  rcases hinv.exists_session with ⟨a, hguarded, hsim, -⟩
  by_contra hlive
  rw [not_or, not_le, not_le] at hlive
  have hprotected := hinv.protected hi hlive.1
  have hprotected' := hinv.protected hj hlive.2
  unfold Protected at hprotected hprotected'
  rw [hsim.history, hsim.server.time] at hprotected hprotected'
  rcases hguarded i hprotected with ⟨held, hheld, hcount, -⟩
  rcases hguarded j hprotected' with ⟨held', hheld', hcount', -⟩
  rw [hheld, Option.some.injEq] at hheld'
  subst hheld'
  -- The one that is a writer is the only holder.
  have hwrite : held.mode = .write := by
    rcases hconflicts.2 with hkind | hkind
    · exact held.kind_eq i hcount ▸ hkind
    · exact held.kind_eq j hcount' ▸ hkind
  exact hconflicts.1 (held.sole hwrite i j hcount hcount')

/-- A writer and a reader. -/
def oneOfEach : Objects Bool := pair (fun b => if b then .read else .write)

/-- A writer sleeps longer than its lease, and the reader gets in. -/
theorem section_exclusive_late : ∃ s : Tasks Keyspace Bool, (tasks oneOfEach).Reachable s ∧
    Conflicts oneOfEach false true ∧ s.stage false = .sleep 0 ∧ s.stage true = .sleep 5000 ∧
    (0 + 1000 * leaseTime (oneOfEach.kind false) ≤ s.now ∨
      5000 + 1000 * leaseTime (oneOfEach.kind true) ≤ s.now) := by
  rcases System.exists_exec (Tasks.step oneOfEach) (Tasks.start (Keyspace.empty 0))
    [.acquire false, .acquire true, .wait 5000, .acquire true]
    (fun s => s.stage false = .sleep 0 ∧ s.stage true = .sleep 5000) (by decide +kernel) with
    ⟨s, hexec, hend⟩
  rcases of_decide_eq_true hend with ⟨hwriter, hreader⟩
  have h : (tasks oneOfEach).Reachable s :=
    System.reachable_of_exec _ _ s (.init _ ⟨_, 0, rfl, rfl⟩) hexec
  have hconflicts : Conflicts oneOfEach false true := ⟨nofun, .inl rfl⟩
  exact ⟨s, h, hconflicts, hwriter, hreader, section_exclusive h hconflicts hwriter hreader⟩

/-- When nobody is between `TryLock` and `UnLock`, the lock is free. -/
theorem free_of_outside (h : (tasks O).Reachable s) (hout : ∀ i since, s.stage i ≠ .sleep since) :
    ∃ a : Session O.kind, Simulates O s.locks a ∧ a.table.held = none := by
  have hinv := reachable_inv h
  rcases hinv.exists_session with ⟨a, -, hsim, hcounted⟩
  refine ⟨a, hsim, ?_⟩
  cases hheld : a.table.held with
  | none => rfl
  | some held =>
      rcases held.held with ⟨i, hi⟩
      have hcount := hcounted i
      rw [Table.count_of_held hheld, ← hsim.history] at hcount
      have hdone := hinv.done i
      unfold Tasks.Done at hdone
      cases hstage : s.stage i with
      | sleep since => exact absurd hstage (hout i since)
      | tryLock =>
          rw [hstage] at hdone
          rcases hdone with ⟨hacquires, hunlocks, -⟩
          omega
      | ended =>
          rw [hstage] at hdone
          rcases hdone with ⟨hacquires, hunlocks⟩
          omega

end Sections

/-! ### The end -/

section End

variable {O : Objects ι} {s : Tasks σ ι}

/-- How far a task at a stage is from its end, by the time. -/
def Stage.left (kind : Kind) (now : Int) : Stage → Nat
  | .tryLock => 3
  | .sleep since => if since + sleepTime kind ≤ now then 1 else 2
  | .ended => 0

omit [DecidableEq ι] in
/-- How far a task is from its end. -/
def Tasks.left (O : Objects ι) (s : Tasks σ ι) (i : ι) : Nat :=
  (s.stage i).left (O.kind i) s.now

omit [DecidableEq ι] in
theorem left_mk (O : Objects ι) (l : State σ ι) (stage : ι → Stage) (i : ι) :
    Tasks.left O ⟨l, stage⟩ i = (stage i).left (O.kind i) (keyspace l.server).time :=
  rfl

theorem Stage.left_le (kind : Kind) (now : Int) (stage : Stage) : stage.left kind now ≤ 3 := by
  cases stage with
  | tryLock => exact Nat.le_refl 3
  | ended => exact Nat.zero_le 3
  | sleep since =>
      unfold Stage.left
      simp only
      split_ifs <;> omega

/-- Time does not take a task away from its end. -/
theorem Stage.left_mono {kind : Kind} {now now' : Int} (h : now ≤ now') (stage : Stage) :
    stage.left kind now' ≤ stage.left kind now := by
  cases stage with
  | tryLock => exact Nat.le_refl 3
  | ended => exact Nat.le_refl 0
  | sleep since =>
      unfold Stage.left
      simp only
      by_cases htime : since + sleepTime kind ≤ now
      · rw [if_pos htime, if_pos (by omega)]
      · rw [if_neg htime]
        split_ifs <;> omega

theorem sleepTime_pos (kind : Kind) : 0 < sleepTime kind := by
  cases kind <;> decide

theorem sleepTime_le (kind : Kind) : sleepTime kind ≤ 5000 := by
  cases kind <;> decide

/-- A step of one task brings the end nearer, if it does so for this task and
    takes no time. -/
theorem left_update [Fintype ι] {l : State σ ι} {i : ι} {stage : Stage}
    (htime : (keyspace l.server).time = s.now)
    (hless : Tasks.left O ⟨l, Function.update s.stage i stage⟩ i < s.left O i) :
    ∑ j, Tasks.left O ⟨l, Function.update s.stage i stage⟩ j < ∑ j, s.left O j := by
  refine Finset.sum_lt_sum (fun j _ => ?_) ⟨i, Finset.mem_univ i, hless⟩
  by_cases hji : j = i
  · rw [hji]
    exact Nat.le_of_lt hless
  · refine Nat.le_of_eq ?_
    rw [left_mk, Function.update_of_ne hji, htime]
    rfl

variable [LawfulServer σ] [Fintype ι]

/-- A step that brings the end nearer, in no more time than it is worth. -/
def Tasks.Nearer (O : Objects ι) (s t : Tasks σ ι) : Prop :=
  ∑ j, t.left O j < ∑ j, s.left O j ∧ s.now ≤ t.now ∧
    t.now + 5000 * (∑ j, t.left O j : Nat) ≤ s.now + 5000 * (∑ j, s.left O j : Nat)

/-- A task that has the lock goes on, when it has slept. -/
theorem exists_unLock (h : (tasks O).Reachable s) {i : ι} {since : Int}
    (hi : s.stage i = .sleep since) : ∃ e t, s.step O e = some t ∧ s.Nearer O t := by
  have hinv := reachable_inv h
  rcases hinv.exists_session with ⟨a, -, hsim, -⟩
  have hdone := hinv.done i
  unfold Tasks.Done at hdone
  rw [hi] at hdone
  rcases hdone with ⟨hacquires, -, -, -, hpast⟩
  by_cases htime : since + sleepTime (O.kind i) ≤ s.now
  -- It has acquired once, so its release hands `PEXPIRE` nothing.
  · have hcount := hinv.count i
    have hin : InRange O s.locks (.unlock i) :=
      ⟨count_lt_maxCount hinv.reachable.of_restrict i, fun _ hmore => by omega⟩
    have hnext := next_eq_some_iff.mpr ⟨hin, rfl⟩
    have hnow := time_unlock hsim hnext
    -- The task has ended, and the others have as much left as before.
    have hless : ∑ j, Tasks.left O ⟨ReadWriteLock.step O s.locks (.unlock i),
        Function.update s.stage i .ended⟩ j < ∑ j, s.left O j := by
      refine left_update hnow ?_
      have hleft : s.left O i = 1 := by
        unfold Tasks.left
        rw [hi]
        exact if_pos htime
      rw [hleft, left_mk, Function.update_self]
      exact Nat.one_pos
    refine ⟨.unLock i, _, by simp only [Tasks.step, hi, if_pos htime, hnext]; rfl, hless, ?_⟩
    change s.now ≤ (keyspace _).time ∧ (keyspace _).time + _ ≤ _
    rw [hnow]
    change s.now ≤ s.now ∧ s.now + _ ≤ _
    omega
  -- It sleeps on, for no longer than five seconds.
  · have hd := Int.toNat_of_nonneg (a := since + sleepTime (O.kind i) - s.now) (by omega)
    generalize (since + sleepTime (O.kind i) - s.now).toNat = d at hd
    have hnext : next O s.locks (.wait d) = some _ := next_eq_some_iff.mpr ⟨trivial, rfl⟩
    have hwait := time_wait hsim hnext
    have hshort := sleepTime_le (O.kind i)
    -- The task has slept enough, and time only shortens what is left.
    have hless : ∑ j, Tasks.left O ⟨ReadWriteLock.step O s.locks (.wait d), s.stage⟩ j <
        ∑ j, s.left O j := by
      refine Finset.sum_lt_sum (fun j _ => ?_) ⟨i, Finset.mem_univ i, ?_⟩
      · rw [left_mk, hwait]
        exact Stage.left_mono (by unfold Tasks.now; omega) (s.stage j)
      · rw [left_mk, hi, hwait]
        unfold Tasks.left
        rw [hi]
        have hlate : (Stage.sleep since).left (O.kind i)
            ((keyspace s.locks.server).time + d) = 1 := if_pos (by unfold Tasks.now at hd; omega)
        have hearly : (Stage.sleep since).left (O.kind i) s.now = 2 := if_neg htime
        rw [hlate, hearly]
        exact Nat.one_lt_two
    refine ⟨.wait d, _, by simp only [Tasks.step, hnext]; rfl, hless, ?_⟩
    change s.now ≤ (keyspace _).time ∧ (keyspace _).time + _ ≤ _
    rw [hwait]
    change s.now ≤ s.now + d ∧ s.now + d + _ ≤ _
    omega

/-- Some step brings the end nearer, as long as the server takes the times. -/
theorem exists_nearer (h : (tasks O).Reachable s) (hended : ¬ ∀ i, s.stage i = .ended)
    (hnow : Fits s.now) (hroom : Fits (s.now + 10000)) :
    ∃ e t, s.step O e = some t ∧ s.Nearer O t := by
  by_cases hsleeps : ∃ i since, s.stage i = .sleep since
  · rcases hsleeps with ⟨i, since, hi⟩
    exact exists_unLock h hi
  -- Nobody has the lock, so whoever asks for it gets it.
  · simp only [not_exists] at hsleeps
    rcases free_of_outside h hsleeps with ⟨a, hsim, hheld⟩
    rcases not_forall.mp hended with ⟨i, hi⟩
    have htry : s.stage i = .tryLock := by
      cases hstage : s.stage i with
      | tryLock => rfl
      | sleep since => exact absurd hstage (hsleeps i since)
      | ended => exact absurd hstage hi
    have hadmits : a.table.Admits i := fun held hh => by
      rw [hheld] at hh
      cases hh
    have hnull := (tryInnerLock_eq_none_iff hsim.server i (leaseTime (O.kind i))).mpr hadmits
    have hfits : (keyspace s.locks.server).Accepts (toMillisecond (leaseTime (O.kind i))) := by
      unfold Tasks.now Fits at hnow hroom
      rw [toMillisecond_leaseTime]
      unfold Keyspace.Accepts Fits
      cases O.kind i <;> simp only [leaseTime] <;> omega
    have hhash : hashTime O i (toMillisecond (leaseTime (O.kind i))) s.locks.server =
        toMillisecond (leaseTime (O.kind i)) := by
      have hpos := leaseTime_pos (O.kind i)
      have hpttl := pttl_of_none (hsim.server.keys_name_eq_none hheld)
      unfold hashTime
      rw [hpttl]
      cases hk : O.kind i <;> rw [hk] at hpos <;> simp only <;> omega
    have hin : InRange O s.locks (.lock i (leaseTime (O.kind i))) := by
      refine ⟨?_, hfits, hhash.symm ▸ hfits⟩
      rw [hsim.server.count_eq, Table.count_of_none hheld]
      decide
    have hnext := next_eq_some_iff.mpr ⟨hin, rfl⟩
    have htime := time_lock hsim hnext
    have hless : ∑ j, Tasks.left O ⟨ReadWriteLock.step O s.locks
        (.lock i (leaseTime (O.kind i))), Function.update s.stage i (.sleep s.now)⟩ j <
          ∑ j, s.left O j := by
      refine left_update htime ?_
      have hpos := sleepTime_pos (O.kind i)
      rw [left_mk, Function.update_self, htime]
      unfold Tasks.left
      rw [htry]
      have hasleep : (Stage.sleep s.now).left (O.kind i) (keyspace s.locks.server).time = 2 :=
        if_neg (by unfold Tasks.now; omega)
      rw [hasleep]
      exact Nat.lt_succ_self 2
    refine ⟨.acquire i, _, by
      simp only [Tasks.step, if_pos htry, hnull, hnext, if_true]; rfl, hless, ?_⟩
    change s.now ≤ (keyspace _).time ∧ (keyspace _).time + _ ≤ _
    rw [htime]
    change s.now ≤ s.now ∧ s.now + _ ≤ _
    omega

/-- From every state that is reached all tasks can end, if the clock leaves fifteen
    seconds for each of them and fifteen more; and when they have, there is no lock
    left on the server. -/
theorem ends_free (h : (tasks O).Reachable s) :
    (Fits s.now → Fits (s.now + 15000 * (Fintype.card ι + 1)) →
      ∃ events t, (tasks O).Run s events t ∧ ∀ i, t.stage i = .ended) ∧
    ((∀ i, s.stage i = .ended) → (keyspace s.locks.server).keys O.name = none) := by
  constructor
  · intro hnow hroom
    have hleft : (∑ i, s.left O i) ≤ 3 * Fintype.card ι := by
      refine (Finset.sum_le_card_nsmul Finset.univ _ 3
        (fun i _ => Stage.left_le _ _ _)).trans (le_of_eq ?_)
      rw [Nat.nsmul_eq_mul, Finset.card_univ, Nat.mul_comm]
    -- Each step takes no more time than it brings the end nearer.
    refine System.finishes
      (fun t => (tasks O).Reachable t ∧ Fits t.now ∧
        Fits (t.now + 5000 * (∑ i, t.left O i : Nat) + 10000))
      (fun s => ∑ i, s.left O i) (fun s => ∀ i, s.stage i = .ended) ?_ ⟨h, hnow, ?_⟩
    · rintro s ⟨h, hnow, hroom⟩ hended
      unfold Fits at hnow hroom
      rcases exists_nearer h hended hnow ⟨by omega, by omega⟩ with
        ⟨e, t, hst, hless, hlater, hworth⟩
      refine ⟨e, t, hst, ⟨.step s e t h hst, ?_, ?_⟩, hless⟩
      · unfold Fits
        omega
      · unfold Fits
        omega
    · unfold Fits at hnow hroom ⊢
      omega
  · intro hended
    rcases free_of_outside h (fun i since hi => by rw [hended i] at hi; cases hi) with
      ⟨a, hsim, hheld⟩
    exact hsim.server.keys_name_eq_none hheld

/-- A writer has the lock and a reader waits for it: both can end. -/
theorem ends_free_oneOfEach : ∃ s : Tasks Keyspace Bool, (tasks oneOfEach).Reachable s ∧
    s.stage false = .sleep 0 ∧ s.stage true = .tryLock ∧
    (∃ events t, (tasks oneOfEach).Run s events t ∧ ∀ i, t.stage i = .ended) ∧
    ∃ t : Tasks Keyspace Bool, (tasks oneOfEach).Reachable t ∧ (∀ i, t.stage i = .ended) ∧
      (keyspace t.locks.server).keys oneOfEach.name = none := by
  rcases System.exists_exec (Tasks.step oneOfEach) (Tasks.start (Keyspace.empty 0))
    [.acquire false, .acquire true, .wait 1000]
    (fun s : Tasks Keyspace Bool =>
      s.stage false = .sleep 0 ∧ s.stage true = .tryLock ∧ s.now = 1000)
    (by decide +kernel) with ⟨s, hexec, hend⟩
  have h : (tasks oneOfEach).Reachable s :=
    System.reachable_of_exec _ _ s (.init _ ⟨_, 0, rfl, rfl⟩) hexec
  rcases of_decide_eq_true hend with ⟨hwriter, hreader, hnow⟩
  have hends := (ends_free h).1 (hnow.symm ▸ by decide) (hnow.symm ▸ by decide)
  rcases hends with ⟨events, t, hrun, hended⟩
  have ht := hrun.reachable_of_reachable h
  exact ⟨s, h, hwriter, hreader, ⟨events, t, hrun, hended⟩, t, ht, hended,
    (ends_free ht).2 hended⟩

end End

end ReadWriteLock

end BlogSample
