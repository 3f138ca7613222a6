import BlogSample.ReadWriteLock.Invariant

/-!
# The Write Owner as a Reader

The script of `ReadLock.TryInnerLock` has a clause for a lock in mode `write`
in which the field `ARGV[3]` exists, so that the owner of the write lock may
also read. `ARGV[3]` is made from the reader's own lock name, and no object
but a `WriteLock` ever counts in a field of that form. Every object has a
`Guid` of its own, which is in the names of its fields, so the field of the
`WriteLock` on the same thread is another one. The clause is never met.

So a thread that owns the write lock and calls `TryLock` of a `ReadLock` is
refused for as long as its own lease lasts: nobody else can take the hash away,
and the thread itself is waiting.

## Main definitions

* `Owner`: A `WriteLock` that holds the lock, and a `ReadLock` of its thread.
* `OwnerReads`: What the clause is there for.
* `Action.actor`: The object that takes a step.

## Theorems

* `hexists_write_eq_zero`: The clause is never met.
* `owner_never_reads`: The owner is never admitted as a reader.
* `refused_until_expiry`: It is not until its lease is over.
-/

namespace BlogSample

namespace ReadWriteLock

open Redis Server Transition

variable {σ ι : Type}

/-- A `WriteLock` that holds the lock, and a `ReadLock` that was created on the
    same thread. -/
structure Owner [Server σ] (O : Objects ι) (s : σ) (w r : ι) : Prop where
  write : O.kind w = .write
  read : O.kind r = .read
  thread : O.threadID r = O.threadID w
  holds : (hget s O.name (O.field w)).isSome = true

/-- The owner of the write lock may also read. -/
def OwnerReads [Server σ] (O : Objects ι) (s : σ) : Prop :=
  ∀ w r, Owner O s w r → ∀ timeout, (O.tryInnerLock r timeout s).1 = none

/-- The object that takes a step, if any does. -/
def Action.actor : Action ι → Option ι
  | .lock i _ | .unlock i => some i
  | .wait _ => none

variable {w r : ι}

/-- A lock that a writer holds admits no reader. -/
theorem Held.not_admits_read {kind : ι → Kind} {h : Held kind} (hmode : h.mode = .write)
    (hk : kind r = .read) : ¬ h.Admits r := by
  intro hadmits
  have hsame := hadmits.1
  rw [hk, hmode] at hsame
  cases hsame

variable [DecidableEq ι]

section Sessions

variable {kind : ι → Kind} {a : Session kind} {h : Held kind}

/-- A writer keeps the lock while only others take steps, until its time is
    over. -/
theorem Session.held_step (hh : a.table.held = some h) (hmode : h.mode = .write)
    (hw : h.count w ≠ 0) {x : Action ι} (hx : x.actor ≠ some w) :
    (a.step x).table.held = some h ∨ h.expireAt ≤ (a.step x).table.now := by
  -- Nobody but the writer has a count.
  have hothers : ∀ i, i ≠ w → h.count i = 0 := by
    intro i hi
    by_contra hne
    exact hi (h.sole hmode i w hne hw)
  cases x with
  | lock i timeout =>
      have hi : i ≠ w := fun heq => hx (congrArg some heq)
      have hrefused : ¬ a.table.Admits i := by
        intro hadmits
        rcases hadmits h hh with ⟨hkind, hcount⟩
        exact hcount (hkind.trans hmode) (hothers i hi)
      left
      change (a.table.acquire i (toMillisecond timeout)).held = some h
      rw [Table.acquire_of_not_admits hrefused]
      exact hh
  | unlock i =>
      have hi : i ≠ w := fun heq => hx (congrArg some heq)
      have hzero : a.table.count i = 0 := by
        rw [Table.count_of_held hh]
        exact hothers i hi
      left
      change (a.table.release i (a.leaseTime i)).held = some h
      rw [Table.release_of_count_eq_zero hzero]
      exact hh
  | wait d =>
      change (a.table.wait d).held = some h ∨ h.expireAt ≤ a.table.now + d
      rw [Table.held_wait hh]
      by_cases hlive : a.table.now + d < h.expireAt
      · exact .inl (if_pos hlive)
      · exact .inr (by omega)

/-- Time does not go back. -/
theorem Session.now_le_step (a : Session kind) (x : Action ι) :
    a.table.now ≤ (a.step x).table.now := by
  cases x with
  | lock i timeout => exact le_of_eq (Table.now_acquire ..).symm
  | unlock i => exact le_of_eq (Table.now_release ..).symm
  | wait d =>
      change a.table.now ≤ a.table.now + d
      omega

/-- The same, for any number of steps. -/
theorem Session.held_foldl (hmode : h.mode = .write) (hw : h.count w ≠ 0) :
    ∀ (actions : List (Action ι)) (a : Session kind), (∀ x ∈ actions, x.actor ≠ some w) →
      (a.table.held = some h ∨ h.expireAt ≤ a.table.now) →
      ((actions.foldl Session.step a).table.held = some h ∨
        h.expireAt ≤ (actions.foldl Session.step a).table.now) := by
  intro actions
  induction actions with
  | nil => exact fun a _ hheld => hheld
  | cons x actions ih =>
      intro a hothers hheld
      refine ih (a.step x) (fun y hy => hothers y (List.mem_cons_of_mem _ hy)) ?_
      rcases hheld with hh | hover
      · exact Session.held_step hh hmode hw (hothers x List.mem_cons_self)
      · exact .inr (le_trans hover (a.now_le_step x))

end Sessions

section Runs

variable [Server σ] [LawfulServer σ] {O : Objects ι}

/-- Code and session agree after any number of steps. -/
theorem run_simulates {s s' : State σ ι} {a : Session O.kind} {steps : List (State σ ι × Action ι)}
    (hrun : (locks O).Run s steps s') (h : Simulates O s a) :
    Simulates O s' ((steps.map Prod.snd).foldl Session.step a) := by
  induction hrun with
  | nil => exact h
  | snoc steps t x t' _ hst ih =>
      rw [List.map_append, List.foldl_append]
      exact next_simulates ih hst

omit [DecidableEq ι] in
/-- The lock is held by the writer that holds it, and by nobody else. -/
theorem Represents.held_of_owner {s : σ} {t : Table O.kind} (hr : Represents O (keyspace s) t)
    (ho : Owner O s w r) : ∃ h, t.held = some h ∧ h.mode = .write ∧ h.count w ≠ 0 := by
  have hcount := ho.holds
  rw [hr.isSome_eq, decide_eq_true_eq] at hcount
  rcases Table.exists_held hcount with ⟨h, hh, hw⟩
  exact ⟨h, hh, (h.kind_eq w hw) ▸ ho.write, hw⟩

/-- In every run, no reader finds the field that its script looks for: the
    clause for the write owner is never met. -/
theorem hexists_write_eq_zero {s : State σ ι} (hs : (locks O).Reachable s)
    (hk : O.kind r = .read) :
    hexists s.server O.name (O.getLockName r ++ ":write") = 0 := by
  rcases exists_session hs with ⟨a, -, hsim⟩
  exact hsim.server.hexists_write hk

/-- In every run, whoever holds the write lock is refused as a reader, by any
    `ReadLock` of the same thread, and nothing changes. -/
theorem owner_never_reads {s : State σ ι} (hs : (locks O).Reachable s)
    (ho : Owner O s.server w r) (timeout : Int) :
    (O.tryInnerLock r timeout s.server).1 ≠ none ∧
      (O.tryInnerLock r timeout s.server).2 = s.server := by
  rcases exists_session hs with ⟨a, -, hsim⟩
  rcases hsim.server.held_of_owner ho with ⟨h, hh, hmode, -⟩
  exact tryInnerLock_refused hsim.server
    (fun hadmits => Held.not_admits_read hmode ho.read (hadmits h hh)) timeout

/-- Whatever other objects do, the owner of the write lock is refused as a
    reader until its lease is over. -/
theorem refused_until_expiry {s s' : State σ ι} (hs : (locks O).Reachable s)
    (ho : Owner O s.server w r) {steps : List (State σ ι × Action ι)}
    (hrun : (locks O).Run s steps s') (hothers : ∀ p ∈ steps, p.2.actor ≠ some w)
    (hlive : (keyspace s'.server).time < (keyspace s.server).time + pttl s.server O.name)
    (timeout : Int) : (O.tryInnerLock r timeout s'.server).1 ≠ none := by
  rcases exists_session hs with ⟨a, -, hsim⟩
  rcases hsim.server.held_of_owner ho with ⟨h, hh, hmode, hw⟩
  have hsim' := run_simulates hrun hsim
  have hothers' : ∀ x ∈ steps.map Prod.snd, x.actor ≠ some w := by
    intro x hx
    rcases List.mem_map.mp hx with ⟨p, hp, rfl⟩
    exact hothers p hp
  -- The remaining time is that of the holder.
  rw [hsim.server.pttl_name hh, hsim'.server.time, hsim.server.time] at hlive
  rcases Session.held_foldl hmode hw _ a hothers' (.inl hh) with hheld | hover
  · exact (tryInnerLock_refused hsim'.server
      (fun hadmits => Held.not_admits_read hmode ho.read (hadmits h hheld)) timeout).1
  · omega

end Runs

/-- A writer and a reader, created on one thread. -/
def writerAndReader : Objects Bool := pair (fun b => if b then .read else .write)

/-- A writer that has acquired the lock for ten seconds. -/
theorem owner_reachable : ∃ s : State Keyspace Bool, (locks writerAndReader).Reachable s ∧
    Owner writerAndReader s.server false true := by
  rcases System.exists_exec (next writerAndReader) (State.start (Keyspace.empty 0))
    [.lock false 10]
    (fun s => (hget s.server writerAndReader.name (writerAndReader.field false)).isSome)
    (by decide +kernel) with ⟨s, hexec, hholds⟩
  exact ⟨s, System.reachable_of_exec _ _ s (.init _ ⟨_, 0, rfl, rfl⟩) hexec, rfl, rfl, rfl, hholds⟩

/-- Its thread is refused as a reader. -/
theorem owner_never_reads_pair : ∃ s : State Keyspace Bool,
    (locks writerAndReader).Reachable s ∧
    (writerAndReader.tryInnerLock true 10 s.server).1 ≠ none := by
  rcases owner_reachable with ⟨s, hs, ho⟩
  exact ⟨s, hs, (owner_never_reads hs ho 10).1⟩

/-- So the owner of the write lock may not read. -/
theorem owner_refused : ∃ s : State Keyspace Bool, (locks writerAndReader).Reachable s ∧
    ¬ OwnerReads writerAndReader s.server := by
  rcases System.exists_exec (next writerAndReader) (State.start (Keyspace.empty 0))
    [.lock false 10]
    (fun s => (hget s.server writerAndReader.name (writerAndReader.field false)).isSome &&
      (writerAndReader.tryInnerLock true 10 s.server).1 == some 10000)
    (by decide +kernel) with ⟨s, hexec, hend⟩
  rw [Bool.and_eq_true, beq_iff_eq] at hend
  refine ⟨s, System.reachable_of_exec _ _ s (.init _ ⟨_, 0, rfl, rfl⟩) hexec, fun hreads => ?_⟩
  have hnull := hreads false true ⟨rfl, rfl, rfl, hend.1⟩ 10
  rw [hend.2] at hnull
  cases hnull

end ReadWriteLock

end BlogSample
