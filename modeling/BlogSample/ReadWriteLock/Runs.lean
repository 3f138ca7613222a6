import BlogSample.ReadWriteLock.Refinement
import BlogSample.Theory.Transition

/-!
# Runs of the Locks

Any number of lock objects of one name, used against one server in any order.
A step is a call of `Acquire`, a call of `UnLock`, or the passing of some
time. `TryLock` calls `Acquire` until it succeeds, so what it does is among
these steps. A call with a number that the server does not take is not: its
script stops with an error when it has written something, and the lock may be
left without a time of expiry.

A state also records what the claims about the locks speak of and the code
does not store: how often an object has acquired and released, when its latest
lease ends, and which leases were granted since the hash was created. No step
looks at this record.

The same runs are taken by a lease table in place of the server. `Simulates`
relates the two, and `exists_session` is what every result about the code
starts from.

## Main definitions

* `History`: The record.
* `State`, `Action`, `step`, `InRange`, `locks`: The code.
* `AtLeastOneSecond`: The timeouts the locks are meant for.
* `Session`, `Session.step`, `sessions`: The same over a lease table.
* `Simulates`: The two agree.
* `pair`: Two lock objects, of any classes.

## Theorems

* `step_simulates`: They agree from one step to the next.
* `exists_session`, `exists_session_restrict`: They agree on every run, also
  when both are held to corresponding conditions.
* `count_lt_maxCount`: The release of a reader is always in range.
-/

namespace BlogSample

namespace ReadWriteLock

open Redis Server Transition

variable {σ ι : Type}

/-- What has happened in a run: the successful acquires of each object, its
    calls of `UnLock` and those of them that found it holding the lock, the end
    of its latest lease by the timeout it asked for, and when the leases end
    that were granted since the hash was created. -/
structure History (ι : Type) where
  acquires : ι → Nat
  unlocks : ι → Nat
  releases : ι → Nat
  leaseEnd : ι → Int
  granted : List Int

/-- Nothing has happened. -/
def History.empty : History ι := ⟨fun _ => 0, fun _ => 0, fun _ => 0, fun _ => 0, []⟩

/-- A step of a run. -/
inductive Action (ι : Type) where
  | lock (i : ι) (timeout : Int)
  | unlock (i : ι)
  | wait (d : Nat)

/-- The server, what the objects keep, and the record of the run. -/
structure State (σ ι : Type) where
  server : σ
  internalLockLeaseTime : ι → Int
  history : History ι

/-- The timeouts that are asked for are at least a second. -/
def AtLeastOneSecond (_ : State σ ι) : Action ι → Prop
  | .lock _ timeout => 1 ≤ timeout
  | _ => True

/-- No object has done anything. -/
def State.start (server : σ) : State σ ι := ⟨server, fun _ => 0, .empty⟩

/-- The lock as a lease table, what the objects keep, and the record. -/
structure Session (kind : ι → Kind) where
  table : Table kind
  leaseTime : ι → Int
  history : History ι

/-- No object has done anything, and the lock is free. -/
def Session.start (kind : ι → Kind) (now : Int) : Session kind :=
  ⟨Table.empty now, fun _ => 0, .empty⟩

variable [Server σ]

/-- A state of the code and a session agree. -/
structure Simulates (O : Objects ι) (s : State σ ι) (a : Session O.kind) : Prop where
  server : Represents O (keyspace s.server) a.table
  leaseTime : s.internalLockLeaseTime = a.leaseTime
  history : s.history = a.history

/-- Code and session agree at the start. -/
theorem start_simulates (O : Objects ι) {server : σ} {now : Int}
    (h : keyspace server = Keyspace.empty now) :
    Simulates O (State.start server) (Session.start O.kind now) :=
  ⟨h ▸ empty_represents now, rfl, rfl⟩

/-- The server takes the numbers of this step. -/
def InRange (O : Objects ι) (s : State σ ι) : Action ι → Prop
  | .lock i timeout => LockInRange O i timeout s.server
  | .unlock i => UnLockInRange O i (s.internalLockLeaseTime i) s.server
  | .wait _ => True

instance (O : Objects ι) (s : State σ ι) (x : Action ι) : Decidable (InRange O s x) :=
  match x with
  | .lock i timeout => inferInstanceAs (Decidable (LockInRange O i timeout s.server))
  | .unlock i =>
      inferInstanceAs (Decidable (UnLockInRange O i (s.internalLockLeaseTime i) s.server))
  | .wait _ => isTrue trivial

variable [DecidableEq ι]

/-- An object has acquired the lock, which was free or not before. -/
def History.acquired (H : History ι) (i : ι) (timeout now : Int) (free : Bool) :
    History ι where
  acquires := Function.update H.acquires i (H.acquires i + 1)
  unlocks := H.unlocks
  releases := H.releases
  leaseEnd := Function.update H.leaseEnd i (now + 1000 * timeout)
  granted := (now + toMillisecond timeout) :: if free then [] else H.granted

/-- An object has called `UnLock`, holding the lock or not. -/
def History.released (H : History ι) (i : ι) (holds : Bool) : History ι where
  acquires := H.acquires
  unlocks := Function.update H.unlocks i (H.unlocks i + 1)
  releases := if holds then Function.update H.releases i (H.releases i + 1) else H.releases
  leaseEnd := H.leaseEnd
  granted := H.granted

/-- One step. `Acquire` keeps the timeout whether or not it gets the lock. -/
def step (O : Objects ι) (s : State σ ι) : Action ι → State σ ι
  | .lock i timeout =>
      let (ttl, server) := O.tryInnerLock i timeout s.server
      { server := server
        internalLockLeaseTime := Function.update s.internalLockLeaseTime i timeout
        history :=
          if ttl = none then
            s.history.acquired i timeout (keyspace s.server).time
              ((keyspace s.server).keys O.name).isNone
          else s.history }
  | .unlock i =>
      { server := (O.tryInnerUnLock i (s.internalLockLeaseTime i) s.server).2
        internalLockLeaseTime := s.internalLockLeaseTime
        history := s.history.released i (hget s.server O.name (O.field i)).isSome }
  | .wait d => { s with server := wait s.server d }

/-- A step whose numbers the server takes. -/
def next (O : Objects ι) (s : State σ ι) (x : Action ι) : Option (State σ ι) :=
  if InRange O s x then some (step O s x) else none

/-- The runs of the lock objects. -/
def locks (O : Objects ι) : System (State σ ι) (Action ι) :=
  System.ofFn (fun s => ∃ server now, keyspace server = Keyspace.empty now ∧
    s = State.start server) (next O)

open Classical in
/-- The same step over a lease table. -/
noncomputable def Session.step {kind : ι → Kind} (a : Session kind) :
    Action ι → Session kind
  | .lock i timeout =>
      { table := a.table.acquire i (toMillisecond timeout)
        leaseTime := Function.update a.leaseTime i timeout
        history :=
          if a.table.Admits i then
            a.history.acquired i timeout a.table.now a.table.held.isNone
          else a.history }
  | .unlock i =>
      { table := a.table.release i (a.leaseTime i)
        leaseTime := a.leaseTime
        history := a.history.released i (a.table.count i ≠ 0) }
  | .wait d => { a with table := a.table.wait d }

/-- The runs over a lease table. -/
noncomputable def sessions (kind : ι → Kind) : System (Session kind) (Action ι) :=
  System.ofFn (fun a => ∃ now, a = Session.start kind now) (fun a x => some (a.step x))

theorem next_eq_some_iff {O : Objects ι} {s s' : State σ ι} {x : Action ι} :
    next O s x = some s' ↔ InRange O s x ∧ step O s x = s' := by
  unfold next
  by_cases hin : InRange O s x <;> simp [hin]

variable [LawfulServer σ]

/-- Code and session agree from one step to the next. -/
theorem step_simulates {O : Objects ι} {s : State σ ι} {a : Session O.kind}
    (h : Simulates O s a) {x : Action ι} (hin : InRange O s x) :
    Simulates O (step O s x) (a.step x) := by
  cases x with
  | lock i timeout =>
      have hreply := tryInnerLock_eq_none_iff h.server i timeout
      refine ⟨tryInnerLock_refines h.server i hin, ?_, ?_⟩
      · simp only [step, Session.step, h.leaseTime]
      · simp only [step, Session.step, h.history, h.server.time, h.server.isNone_eq]
        by_cases ha : a.table.Admits i
        · rw [if_pos (hreply.mpr ha), if_pos ha]
        · rw [if_neg (fun hnull => ha (hreply.mp hnull)), if_neg ha]
  | unlock i =>
      refine ⟨?_, h.leaseTime, ?_⟩
      · simp only [step, Session.step, ← h.leaseTime]
        exact tryInnerUnLock_refines h.server i hin
      · simp only [step, Session.step, h.history, h.server.isSome_eq]
  | wait d =>
      refine ⟨?_, h.leaseTime, h.history⟩
      simp only [step, Session.step, wait_eq]
      exact wait_refines h.server d

/-- A step that is made is made by the session. -/
theorem next_simulates {O : Objects ι} {s s' : State σ ι} {a : Session O.kind}
    (h : Simulates O s a) {x : Action ι} (hst : next O s x = some s') :
    Simulates O s' (a.step x) := by
  rcases next_eq_some_iff.mp hst with ⟨hin, rfl⟩
  exact step_simulates h hin

/-- Runs of the code that meet a condition stand for sessions that meet a
    corresponding one. -/
theorem exists_session_restrict {O : Objects ι} {ok : State σ ι → Action ι → Prop}
    {ok' : Session O.kind → Action ι → Prop}
    (hok : ∀ s a x, Simulates O s a → ok s x → ok' a x) {s : State σ ι}
    (hs : ((locks O).restrict ok).Reachable s) :
    ∃ a, ((sessions O.kind).restrict ok').Reachable a ∧ Simulates O s a := by
  refine hs.refines (Simulates O) ?_ ?_
  · rintro _ ⟨server, now, hempty, rfl⟩
    exact ⟨_, ⟨now, rfl⟩, start_simulates O hempty⟩
  · rintro s a x s' h ⟨hx, hst⟩
    exact ⟨a.step x, ⟨hok s a x h hx, rfl⟩, next_simulates h hst⟩

/-- Every run of the code stands for a session. -/
theorem exists_session {O : Objects ι} {s : State σ ι} (hs : (locks O).Reachable s) :
    ∃ a, (sessions O.kind).Reachable a ∧ Simulates O s a := by
  refine hs.refines (Simulates O) ?_ ?_
  · rintro _ ⟨server, now, hempty, rfl⟩
    exact ⟨_, ⟨now, rfl⟩, start_simulates O hempty⟩
  · intro s a x s' h hst
    exact ⟨a.step x, rfl, next_simulates h hst⟩

/-- No object has acquired more often than Lua can write. -/
theorem count_lt_maxCount {O : Objects ι} {s : State σ ι} (hs : (locks O).Reachable s) (i : ι) :
    count O s.server i < maxCount := by
  have hinv : (∃ a, Simulates O s a) ∧ ∀ i, count O s.server i < maxCount := by
    refine hs.invariant (fun s => (∃ a, Simulates O s a) ∧ ∀ i, count O s.server i < maxCount)
      ?_ ?_
    · rintro _ ⟨server, now, hempty, rfl⟩
      have hsim := start_simulates O hempty
      refine ⟨⟨_, hsim⟩, fun i => ?_⟩
      rw [hsim.server.count_eq, Table.count_of_none rfl]
      decide
    · rintro s x s' ⟨⟨a, hsim⟩, hcount⟩ hst
      have hsim' := next_simulates hsim hst
      refine ⟨⟨_, hsim'⟩, fun j => ?_⟩
      have hj := hcount j
      rw [hsim.server.count_eq] at hj
      rw [hsim'.server.count_eq]
      -- Only an acquire counts, and its count is in range.
      cases x with
      | lock i timeout =>
          have hin := (next_eq_some_iff.mp hst).1.1
          rw [hsim.server.count_eq] at hin
          have hle := a.table.count_acquire_le i j (toMillisecond timeout)
          by_cases hji : j = i
          · rw [hji, Function.update_self] at hle
            rw [hji]
            exact lt_of_le_of_lt (Int.ofNat_le.mpr hle) hin
          · rw [Function.update_of_ne hji] at hle
            exact lt_of_le_of_lt (Int.ofNat_le.mpr hle) hj
      | unlock i =>
          have hle := a.table.count_release_le i j (a.leaseTime i)
          exact lt_of_le_of_lt (Int.ofNat_le.mpr hle) hj
      | wait d => exact lt_of_le_of_lt (Int.ofNat_le.mpr (a.table.count_wait_le d j)) hj
  exact hinv.2 i

/-- Two lock objects of one name, created on one thread. -/
def pair (kind : Bool → Kind) : Objects Bool where
  name := "lock"
  kind := kind
  hashKey := fun b =>
    if b then "7c9e6679-7425-40de-944b-e07fc1f90ae7" else "0f8fad5b-d9cb-469f-a165-70867728950e"
  threadID := fun _ => 1
  hashKey_injective := by
    intro a b h
    cases a <;> cases b <;> first | rfl | exact absurd h (by decide)
  hashKey_no_colon := by decide
  name_fresh := by
    intro i x h
    have hhead := congrArg (fun s : String => s.toList.head?) h
    simp [lockPrefix, String.toList_append] at hhead

end ReadWriteLock

end BlogSample
