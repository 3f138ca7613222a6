import BlogSample.ReadWriteLock.Invariant

/-!
# Lease Safety

Whether an object that has acquired the lock has it to itself for as long as it
asked for. It does not always: a `WriteLock` that has acquired twice and
releases once passes `internalLockLeaseTime` to `PEXPIRE`, which is in seconds
where `PEXPIRE` takes milliseconds. The hash then lives a thousandth of the
time it should, and another writer gets in.

What is true is that a step of this kind is the only way to lose the lock.
`KeepsLease` says which steps are safe, by what the state is before the step.
A timeout must not wrap around when it is turned into milliseconds. A release
must be the last one of the object, or come when its lease is over, or leave it
holding a hash that will last for its lease. A call of `UnLock` that finds no
lock of its object is no release, and takes nothing off what it has acquired.

## Main definitions

* `Protected`: An object that has the lock by its own reckoning.
* `Conflicts`: Two objects that must not have the lock together.
* `LeaseSafe`: No object gets in while a conflicting one is protected.
* `KeepsLease`: The steps that are safe.
* `Session.Guarded`: The hash outlasts every lease that is still running.

## Theorems

* `guarded`: The invariant of the runs whose steps are all safe.
* `lease_safe`: In those runs no protected object is disturbed.
* `partial_unlock_breaks_lease`: A run in which one is.
-/

namespace BlogSample

namespace ReadWriteLock

open Redis Server Transition

variable {σ ι : Type}

section Model

variable [Server σ]

/-- An object has the lock by its own reckoning: it has acquired it more often
    than it has released it, and less time than its timeout has passed since
    its latest successful acquire. -/
def Protected (s : State σ ι) (i : ι) : Prop :=
  s.history.releases i < s.history.acquires i ∧
    (keyspace s.server).time < s.history.leaseEnd i

/-- Two objects one of which is a writer. -/
def Conflicts (O : Objects ι) (i j : ι) : Prop :=
  i ≠ j ∧ (O.kind i = .write ∨ O.kind j = .write)

/-- No object gets the lock while a conflicting one has it. -/
def LeaseSafe (O : Objects ι) (s : State σ ι) : Prop :=
  ∀ i j, Conflicts O i j → Protected s i →
    ∀ timeout, (O.tryInnerLock j timeout s.server).1 ≠ none

/-- The steps that leave every object what it has. -/
def KeepsLease (O : Objects ι) (s : State σ ι) : Action ι → Prop
  | .lock _ timeout => toMillisecond timeout = 1000 * timeout
  | .unlock i =>
      s.history.acquires i ≤ s.history.releases i + 1 ∨
      s.history.leaseEnd i ≤ (keyspace s.server).time ∨
      (1 < count O s.server i ∧ (O.kind i = .write →
        s.history.leaseEnd i ≤ (keyspace s.server).time + s.internalLockLeaseTime i))
  | .wait _ => True

instance (O : Objects ι) (s : State σ ι) (x : Action ι) : Decidable (KeepsLease O s x) :=
  match x with
  | .lock _ timeout =>
      inferInstanceAs (Decidable (toMillisecond timeout = 1000 * timeout))
  | .unlock _ => inferInstanceAs (Decidable (_ ∨ _ ∨ (_ ∧ (_ → _))))
  | .wait _ => isTrue trivial

end Model

namespace Session

variable {kind : ι → Kind}

/-- An object has the lock by its own reckoning. -/
def Protected (a : Session kind) (i : ι) : Prop :=
  a.history.releases i < a.history.acquires i ∧ a.table.now < a.history.leaseEnd i

/-- The steps that leave every object what it has. -/
def KeepsLease (a : Session kind) : Action ι → Prop
  | .lock _ timeout => toMillisecond timeout = 1000 * timeout
  | .unlock i =>
      a.history.acquires i ≤ a.history.releases i + 1 ∨
      a.history.leaseEnd i ≤ a.table.now ∨
      (1 < a.table.count i ∧ (kind i = .write →
        a.history.leaseEnd i ≤ a.table.now + a.leaseTime i))
  | .wait _ => True

/-- Whoever has the lock by its own reckoning holds it, and for long enough. -/
def Guarded (a : Session kind) : Prop :=
  ∀ i, a.Protected i →
    ∃ h, a.table.held = some h ∧ h.count i ≠ 0 ∧ a.history.leaseEnd i ≤ h.expireAt

/-- Time does not disturb anyone: the lock outlasts the leases. -/
theorem Guarded.wait [DecidableEq ι] {a : Session kind} (hg : a.Guarded) (d : Nat) :
    (a.step (.wait d)).Guarded := by
  rintro i ⟨hmore, hend⟩
  have hend' : a.table.now + d < a.history.leaseEnd i := hend
  rcases hg i ⟨hmore, by omega⟩ with ⟨h, hh, hi, hle⟩
  refine ⟨h, ?_, hi, hle⟩
  have hheld := Table.held_wait hh d
  rwa [if_pos (by omega)] at hheld

variable [DecidableEq ι] {a : Session kind}

/-- An acquire does not disturb anyone: its own lease is counted in, and it
    shortens nobody else's. -/
theorem Guarded.lock (hg : a.Guarded) (j : ι) (timeout : Int)
    (hok : a.KeepsLease (.lock j timeout)) : (a.step (.lock j timeout)).Guarded := by
  have hms : toMillisecond timeout = 1000 * timeout := hok
  by_cases ha : a.table.Admits j
  · rcases Table.held_acquire ha (toMillisecond timeout) with ⟨h', _, hc, he, hh'⟩
    have hnew := a.table.add_le_newEnd j (toMillisecond timeout)
    rintro i ⟨hmore, hend⟩
    simp only [step, if_pos ha, History.acquired, Table.now_acquire] at hmore hend ⊢
    by_cases hij : i = j
    · subst hij
      rw [Function.update_self] at hend ⊢
      rw [if_pos (by omega)] at hh'
      refine ⟨h', hh', ?_, by omega⟩
      rw [hc, Function.update_self]
      exact Nat.succ_ne_zero _
    · rw [Function.update_of_ne hij] at hmore hend ⊢
      rcases hg i ⟨hmore, hend⟩ with ⟨h, hh, hi, hle⟩
      -- a writer is not admitted while another object holds the lock
      have hread : kind j = .read := by
        cases hk : kind j with
        | read => rfl
        | write =>
            have hadm := ha h hh
            exact absurd (h.sole (hadm.1 ▸ hk) i j hi (hadm.2 hk)) hij
      have hlong := Table.expireAt_le_newEnd hread hh (toMillisecond timeout)
      rw [if_pos (by omega)] at hh'
      refine ⟨h', hh', ?_, by omega⟩
      rw [hc, Function.update_of_ne hij, Table.count_of_held hh]
      exact hi
  · intro i hi
    simp only [step, if_neg ha, Table.acquire_of_not_admits ha, Protected] at hi ⊢
    exact hg i hi

/-- A safe release does not disturb anyone. -/
theorem Guarded.unlock (hg : a.Guarded) (j : ι) (hok : a.KeepsLease (.unlock j)) :
    (a.step (.unlock j)).Guarded := by
  rintro i ⟨hmore, hend⟩
  simp only [step, History.released, Table.now_release, ne_eq, decide_not, Bool.not_eq_true',
    decide_eq_false_iff_not] at hmore hend ⊢
  -- A call that releases nothing leaves everything as it is.
  by_cases hj : a.table.count j = 0
  · rw [if_neg (not_not.mpr hj)] at hmore
    rw [Table.release_of_count_eq_zero hj]
    exact hg i ⟨hmore, hend⟩
  · rw [if_pos hj] at hmore
    by_cases hij : i = j
    · subst hij
      rw [Function.update_self] at hmore
      -- Its own release: it was the last one, or the lease is over, or the
      -- release leaves enough time.
      rcases hok with hlast | hover | ⟨h1, hwrite⟩
      · omega
      · omega
      · rcases hg i ⟨by omega, hend⟩ with ⟨h, hh, hi, hle⟩
        rw [Table.count_of_held hh] at h1
        rcases Table.held_release hh hi (a.leaseTime i) with ⟨hl, _⟩ | ⟨h', _, hc, he, hh'⟩
        · have hzero := Held.leave_eq_none_iff.mp hl i
          rw [Function.update_self] at hzero
          omega
        · have hlong : a.history.leaseEnd i ≤ a.table.endAfterRelease h i (a.leaseTime i) := by
            cases hk : kind i with
            | read =>
                simp only [Table.endAfterRelease, hk]
                exact hle
            | write =>
                simp only [Table.endAfterRelease, hk]
                exact hwrite hk
          rw [if_pos (lt_of_lt_of_le hend hlong)] at hh'
          refine ⟨h', hh', ?_, he ▸ hlong⟩
          rw [hc, Function.update_self]
          omega
    · rw [Function.update_of_ne hij] at hmore
      rcases hg i ⟨hmore, hend⟩ with ⟨h, hh, hi, hle⟩
      rw [Table.count_of_held hh] at hj
      rcases Table.held_release hh hj (a.leaseTime j) with ⟨hl, _⟩ | ⟨h', _, hc, he, hh'⟩
      · have hzero := Held.leave_eq_none_iff.mp hl i
        rw [Function.update_of_ne hij] at hzero
        exact absurd hzero hi
      -- Two holders are readers, and a reader's release leaves the time alone.
      · have hread : kind j = .read := by
          cases hk : kind j with
          | read => rfl
          | write => exact absurd (h.sole ((h.kind_eq j hj) ▸ hk) i j hi hj) hij
        simp only [Table.endAfterRelease, hread] at he hh'
        rw [if_pos (a.table.held_live h hh)] at hh'
        refine ⟨h', hh', ?_, he ▸ hle⟩
        rw [hc, Function.update_of_ne hij]
        exact hi

end Session

/-- In a session whose steps are all safe, the lock is guarded. -/
theorem guarded [DecidableEq ι] {kind : ι → Kind} {a : Session kind}
    (ha : ((sessions kind).restrict Session.KeepsLease).Reachable a) : a.Guarded := by
  refine ha.invariant Session.Guarded ?_ ?_
  · rintro _ ⟨now, rfl⟩ i ⟨hmore, _⟩
    exact absurd hmore (Nat.lt_irrefl 0)
  · rintro a x a' hg ⟨hok, hst⟩
    rw [← Option.some.inj hst]
    cases x with
    | lock j timeout => exact hg.lock j timeout hok
    | unlock j => exact hg.unlock j hok
    | wait d => exact hg.wait d

section Runs

variable [Server σ] [LawfulServer σ] {O : Objects ι}

/-- A step that is safe for the code is safe for the session. -/
theorem keepsLease_session (s : State σ ι) (a : Session O.kind) (x : Action ι)
    (hsim : Simulates O s a) (hok : KeepsLease O s x) : a.KeepsLease x := by
  cases x with
  | lock i timeout => exact hok
  | unlock i =>
      simp only [KeepsLease, hsim.history, hsim.server.time, hsim.server.count_eq,
        hsim.leaseTime] at hok
      exact hok.imp_right (Or.imp_right (And.imp_left Int.ofNat_lt.mp))
  | wait d => trivial

variable [DecidableEq ι]

/-- In every run whose steps are all safe, no object gets the lock while a
    conflicting one has it by its own reckoning. -/
theorem lease_safe {s : State σ ι} (hs : ((locks O).restrict (KeepsLease O)).Reachable s) :
    LeaseSafe O s := by
  rcases exists_session_restrict keepsLease_session hs with ⟨a, ha, hsim⟩
  intro i j ⟨hij, hconf⟩ hprot timeout hnull
  have hadm := (tryInnerLock_eq_none_iff hsim.server j timeout).mp hnull
  rw [Protected, hsim.history, hsim.server.time] at hprot
  rcases guarded ha i hprot with ⟨h, hh, hi, _⟩
  rcases hadm h hh with ⟨hmode, hwriter⟩
  -- the two are of one class, so both are writers
  have hw : h.mode = .write := by
    rcases hconf with hk | hk
    · exact (h.kind_eq i hi) ▸ hk
    · exact hmode ▸ hk
  exact hij (h.sole hw i j hi (hwriter (hmode.trans hw)))

/-- Two writers. -/
def twoWriters : Objects Bool := pair (fun _ => .write)

/-- A writer releases its only acquire, acquires twice for ten seconds and releases
    once five milliseconds before they are over. The other one releases in vain. -/
theorem lease_safe_writer : ∃ s : State Keyspace Bool,
    ((locks twoWriters).restrict (KeepsLease twoWriters)).Reachable s ∧
      s.history.releases false = 2 ∧ Protected s false ∧ LeaseSafe twoWriters s := by
  rcases System.exists_exec
    (System.guarded (fun s x => decide (KeepsLease twoWriters s x)) (next twoWriters))
    (State.start (Keyspace.empty 0))
    [.lock false 2, .lock true 1, .unlock false, .unlock true, .lock false 10, .lock false 10,
      .wait 9995, .unlock false]
    (fun s => s.history.releases false = 2 ∧ s.history.releases false < s.history.acquires false ∧
      (keyspace s.server).time < s.history.leaseEnd false) (by decide +kernel)
    with ⟨s, hexec, hp⟩
  have hs : ((locks twoWriters).restrict (KeepsLease twoWriters)).Reachable s :=
    System.restrict_reachable_of_guarded (fun _ _ => of_decide_eq_true) _ _ s
      (.init _ ⟨_, 0, rfl, rfl⟩) hexec
  rcases of_decide_eq_true hp with ⟨hrelease, hprot⟩
  exact ⟨s, hs, hrelease, hprot, lease_safe hs⟩

/-- A writer that acquires twice for ten seconds and releases once loses the
    lock to another one ten milliseconds later. -/
theorem partial_unlock_breaks_lease : ∃ s : State Keyspace Bool,
    ((locks twoWriters).restrict AtLeastOneSecond).Reachable s ∧ ¬ LeaseSafe twoWriters s := by
  rcases System.exists_exec (next twoWriters) (State.start (Keyspace.empty 0))
    [.lock false 10, .lock false 10, .unlock false, .wait 10]
    (fun s => (s.history.releases false < s.history.acquires false ∧
      (keyspace s.server).time < s.history.leaseEnd false) ∧
      (twoWriters.tryInnerLock true 10 s.server).1 = none) (by decide +kernel)
    with ⟨s, hexec, hp⟩
  rcases of_decide_eq_true hp with ⟨hprot, hnull⟩
  refine ⟨s, System.restrict_reachable_of_exec _ _ s (.init _ ⟨_, 0, rfl, rfl⟩) ?_ hexec, ?_⟩
  · intro a ha s
    simp only [List.mem_cons, List.not_mem_nil, or_false] at ha
    rcases ha with rfl | rfl | rfl | rfl
    · exact (by decide : (1 : Int) ≤ 10)
    · exact (by decide : (1 : Int) ≤ 10)
    · trivial
    · trivial
  · intro hsafe
    exact hsafe false true ⟨by decide, Or.inl rfl⟩ hprot 10 hnull

end Runs

end ReadWriteLock

end BlogSample
