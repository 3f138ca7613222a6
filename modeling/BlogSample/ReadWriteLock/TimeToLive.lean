import BlogSample.ReadWriteLock.Invariant
import Mathlib.Order.Bounds.Basic
import Mathlib.Order.MinMax

/-!
# The Time to Live of a Lock of Readers

What the release of a reader leaves the hash to live. The script means to give
it the greatest remaining time of the other readers' leases, but it looks for
those under names that no acquire uses, and leaves the time as it was.

As long as only readers use the lock, the time it was is the end of the latest
lease granted since the hash was created, released or not. So the release
gives the hash the time it should exactly when a lease that remains is as late
as all of them: a reader that leaves early goes on delaying writers unless
another one stays as long.

## Main definitions

* `remainingTimes`: What is left of the leases of the readers.
* `LatestRemains`: A lease stays that no lease granted outlasts.
* `Session.EndsWithLatest`: The lock ends with the latest lease granted.

## Theorems

* `endsWithLatest`: What the time of the hash is in every session of readers.
* `unlock_ttl_iff`: When a release leaves the hash the time it should.
* `unlock_ttl_stale`: A run in which it does not.
-/

namespace BlogSample

namespace ReadWriteLock

open Redis Server Transition

variable {σ ι : Type}

section Model

variable [Server σ]

/-- What is left of the leases that the readers' acquires created, of the
    readers that hold the lock. -/
def remainingTimes (O : Objects ι) (s : σ) : Set Int :=
  {x | ∃ (j : ι) (n : Nat), 1 ≤ n ∧ n ≤ count O s j ∧
    ((keyspace s).keys (O.leaseKey j n)).isSome ∧ x = pttl s (O.leaseKey j n)}

/-- Besides the lease that a release of this object takes along, there is one
    that ends no sooner than any granted since the hash was created. -/
def LatestRemains (O : Objects ι) (s : State σ ι) (i : ι) : Prop :=
  ∃ (j : ι) (n : Nat), 1 ≤ n ∧ n ≤ count O s.server j ∧
    ¬ (j = i ∧ n = count O s.server i) ∧
    ∃ c e, (keyspace s.server).keys (O.leaseKey j n) = some ⟨c, some e⟩ ∧
      ∀ g ∈ s.history.granted, g ≤ e

/-- A release of a reader leaves the hash the greatest time that is left of a
    lease, if there is any. -/
def RecomputesTtl [DecidableEq ι] (O : Objects ι) (s : State σ ι) : Prop :=
  ∀ i, (remainingTimes O (step O s (.unlock i)).server).Nonempty →
    IsGreatest (remainingTimes O (step O s (.unlock i)).server)
      (pttl (step O s (.unlock i)).server O.name)

end Model

/-- The lock ends with the latest lease granted since it was last free. -/
def Session.EndsWithLatest {kind : ι → Kind} (a : Session kind) : Prop :=
  ∀ h, a.table.held = some h →
    h.expireAt ∈ a.history.granted ∧ ∀ g ∈ a.history.granted, g ≤ h.expireAt

section Sessions

variable [DecidableEq ι] {kind : ι → Kind} {a : Session kind}

/-- A reader's acquire adds its lease to those granted. -/
theorem Session.EndsWithLatest.lock (he : a.EndsWithLatest) {i : ι} (hk : kind i = .read)
    (timeout : Int) : (a.step (.lock i timeout)).EndsWithLatest := by
  by_cases ha : a.table.Admits i
  · rcases Table.held_acquire ha (toMillisecond timeout) with ⟨h', _, _, he', hh'⟩
    intro h hh
    simp only [step] at hh
    -- A time that is already over leaves no lock behind.
    by_cases hlive : a.table.now < a.table.newEnd i (toMillisecond timeout)
    · rw [if_pos hlive] at hh'
      obtain rfl : h' = h := Option.some.inj (hh'.symm.trans hh)
      rw [he']
      simp only [step, if_pos ha, History.acquired]
      cases hold : a.table.held with
      | none =>
          simp only [Table.newEnd, hold, Option.isNone_none, if_true, List.mem_singleton]
          exact ⟨trivial, fun g hg => le_of_eq hg⟩
      | some h0 =>
          rcases he h0 hold with ⟨hmem, hall⟩
          simp only [Table.newEnd, hold, hk, Option.isNone_some, Bool.false_eq_true, if_false,
            List.mem_cons]
          refine ⟨?_, ?_⟩
          -- The script keeps the later of the two ends.
          · rcases max_choice h0.expireAt (a.table.now + toMillisecond timeout) with hm | hm
            · rw [hm]
              exact Or.inr hmem
            · rw [hm]
              exact Or.inl rfl
          · rintro g (rfl | hg)
            · exact le_max_right _ _
            · exact (hall g hg).trans (le_max_left _ _)
    · rw [if_neg hlive] at hh'
      rw [hh'] at hh
      cases hh
  · intro h hh
    simp only [step, if_neg ha, Table.acquire_of_not_admits ha] at hh ⊢
    exact he h hh

/-- A reader's release leaves the time of the lock as it was. -/
theorem Table.expireAt_release {t : Table kind} {i : ι} {h' : Held kind} {ms : Int}
    (hk : kind i = .read) (hh' : (t.release i ms).held = some h') :
    ∃ h, t.held = some h ∧ h'.expireAt = h.expireAt := by
  by_cases hi : t.count i = 0
  · rw [Table.release_of_count_eq_zero hi] at hh'
    exact ⟨h', hh', rfl⟩
  · rcases Table.exists_held hi with ⟨h, hh, hhi⟩
    refine ⟨h, hh, ?_⟩
    rcases Table.held_release hh hhi ms with ⟨_, hn⟩ | ⟨h0, _, _, he0, hh0⟩
    · rw [hn] at hh'
      cases hh'
    · simp only [Table.endAfterRelease, hk] at he0 hh0
      rw [if_pos (t.held_live h hh)] at hh0
      rw [← Option.some.inj (hh0.symm.trans hh')]
      exact he0

/-- In every session of readers the lock ends with the latest lease. -/
theorem endsWithLatest (hread : ∀ i, kind i = .read) (ha : (sessions kind).Reachable a) :
    a.EndsWithLatest := by
  refine ha.invariant Session.EndsWithLatest ?_ ?_
  · rintro _ ⟨now, rfl⟩ h hh
    cases hh
  · intro a x a' he hst
    rw [← Option.some.inj hst]
    cases x with
    | lock i timeout => exact he.lock (hread i) timeout
    | unlock i =>
        intro h' hh'
        rcases Table.expireAt_release (hread i) hh' with ⟨h, hh, heq⟩
        rw [heq]
        exact he h hh
    | wait d =>
        intro h hh
        exact he h (Option.filter_eq_some_iff.mp hh).1

/-- The leases that remain after a reader's release. -/
theorem Table.lease_release_eq_some_iff {t : Table kind} (hb : t.LeasesBounded) {i j : ι}
    {n : Nat} {e ms : Int} (hk : kind i = .read) :
    (t.release i ms).lease j n = some e ↔ t.lease j n = some e ∧ ¬ (j = i ∧ n = t.count i) := by
  by_cases hi : t.count i = 0
  · rw [Table.release_of_count_eq_zero hi]
    refine ⟨fun he => ⟨he, ?_⟩, And.left⟩
    rintro ⟨rfl, hn⟩
    have := (hb j n e he).2.1
    omega
  · rw [Table.lease_release hi]
    simp only [hk]
    by_cases hj : j = i
    · subst hj
      rw [Function.update_self]
      by_cases hn : n = t.count j
      · rw [hn, Function.update_self]
        simp
      · rw [Function.update_of_ne hn]
        simp [hn]
    · rw [Function.update_of_ne hj]
      simp [hj]

end Sessions

section Runs

variable [Server σ] [LawfulServer σ] {O : Objects ι} {s : σ} {t : Table O.kind}

/-- What is left of the leases, on a server that stores a lease table. -/
theorem Represents.mem_remainingTimes (hr : Represents O (keyspace s) t)
    (hb : t.LeasesBounded) {x : Int} :
    x ∈ remainingTimes O s ↔ ∃ j n e, t.lease j n = some e ∧ x = e - t.now := by
  constructor
  · rintro ⟨j, n, _, _, hkey, rfl⟩
    rw [hr.lease, Option.isSome_map] at hkey
    rcases Option.isSome_iff_exists.mp hkey with ⟨e, he⟩
    have hk := hr.lease j n
    rw [he] at hk
    exact ⟨j, n, e, he, by rw [pttl_of_expireAt hk, hr.time]⟩
  · rintro ⟨j, n, e, he, rfl⟩
    rcases hb j n e he with ⟨_, h1, hn, _⟩
    have hk := hr.lease j n
    rw [he] at hk
    refine ⟨j, n, h1, ?_, ?_, ?_⟩
    · rw [hr.count_eq]
      exact Int.ofNat_le.mpr hn
    · rw [hk]
      rfl
    · rw [pttl_of_expireAt hk, hr.time]

/-- The hash has the time it should when a lease lasts as long as the lock. -/
theorem Represents.isGreatest_pttl_iff (hr : Represents O (keyspace s) t) (hb : t.LeasesBounded)
    {h : Held O.kind} (hh : t.held = some h) :
    IsGreatest (remainingTimes O s) (pttl s O.name) ↔
      ∃ j n, t.lease j n = some h.expireAt := by
  rw [hr.pttl_name hh]
  constructor
  · rintro ⟨hmem, _⟩
    rcases (hr.mem_remainingTimes hb).mp hmem with ⟨j, n, e, he, heq⟩
    obtain rfl : e = h.expireAt := by omega
    exact ⟨j, n, he⟩
  · rintro ⟨j, n, he⟩
    refine ⟨(hr.mem_remainingTimes hb).mpr ⟨j, n, _, he, rfl⟩, ?_⟩
    intro x hx
    rcases (hr.mem_remainingTimes hb).mp hx with ⟨k, m, e, hke, rfl⟩
    rcases hb k m e hke with ⟨_, _, _, h0, hh0, hle⟩
    obtain rfl : h0 = h := Option.some.inj (hh0.symm.trans hh)
    omega

/-- A lease that no lease granted outlasts, in a session. -/
theorem latestRemains_iff {s : State σ ι} {a : Session O.kind} (hsim : Simulates O s a)
    (hb : a.table.LeasesBounded) (i : ι) :
    LatestRemains O s i ↔ ∃ j n e, a.table.lease j n = some e ∧
      ¬ (j = i ∧ n = a.table.count i) ∧ ∀ g ∈ a.history.granted, g ≤ e := by
  constructor
  · rintro ⟨j, n, _, _, hne, c, e, hkey, hall⟩
    rw [hsim.server.lease] at hkey
    rcases Option.map_eq_some_iff.mp hkey with ⟨e', he', heq⟩
    obtain rfl : e' = e := by
      simp only [leaseEntry, Entry.mk.injEq, Option.some.injEq] at heq
      exact heq.2
    refine ⟨j, n, e', he', ?_, hsim.history ▸ hall⟩
    rwa [hsim.server.count_eq, Int.ofNat_inj] at hne
  · rintro ⟨j, n, e, he, hne, hall⟩
    rcases hb j n e he with ⟨_, h1, hn, _⟩
    have hkey := hsim.server.lease j n
    rw [he] at hkey
    refine ⟨j, n, h1, ?_, ?_, _, e, hkey, hsim.history.symm ▸ hall⟩
    · rw [hsim.server.count_eq]
      exact Int.ofNat_le.mpr hn
    · rwa [hsim.server.count_eq, Int.ofNat_inj]

variable [DecidableEq ι]

/-- In every run of readers, a release that leaves a lease gives the hash the
    greatest time that is left of one exactly when a lease remains that ends
    no sooner than any granted since the hash was created. -/
theorem unlock_ttl_iff (hread : ∀ i, O.kind i = .read) {s : State σ ι}
    (hs : (locks O).Reachable s) (i : ι)
    (hlive : (remainingTimes O (step O s (.unlock i)).server).Nonempty) :
    IsGreatest (remainingTimes O (step O s (.unlock i)).server)
        (pttl (step O s (.unlock i)).server O.name) ↔ LatestRemains O s i := by
  rcases exists_session hs with ⟨a, ha, hsim⟩
  have hb := leasesBounded ha
  have hin : InRange O s (.unlock i) :=
    ⟨count_lt_maxCount hs i, fun hk => absurd ((hread i).symm.trans hk) nofun⟩
  have hr := (step_simulates hsim hin).server
  have hb' : (a.table.release i (a.leaseTime i)).LeasesBounded := hb.release i _
  -- Some lease is left, so the hash is left too, with its end as it was.
  rcases hlive with ⟨x, hx⟩
  rcases (hr.mem_remainingTimes hb').mp hx with ⟨k, m, e, hke, _⟩
  rcases hb' k m e hke with ⟨_, _, _, h', hh', _⟩
  rcases Table.expireAt_release (hread i) hh' with ⟨h, hh, heq⟩
  rcases endsWithLatest hread ha h hh with ⟨hmem, hall⟩
  rw [hr.isGreatest_pttl_iff hb' hh', latestRemains_iff hsim hb, heq]
  constructor
  -- That end is the latest of all, so it is right if its lease is left.
  · rintro ⟨j, n, he⟩
    rcases (Table.lease_release_eq_some_iff hb (hread i)).mp he with ⟨hold, hne⟩
    exact ⟨j, n, h.expireAt, hold, hne, hall⟩
  · rintro ⟨j, n, e, hold, hne, hlate⟩
    rcases hb j n e hold with ⟨_, _, _, h0, hh0, hle⟩
    obtain rfl : h0 = h := Option.some.inj (hh0.symm.trans hh)
    obtain rfl : e = h0.expireAt := le_antisymm hle (hlate _ hmem)
    exact ⟨j, n, (Table.lease_release_eq_some_iff hb (hread i)).mpr ⟨hold, hne⟩⟩

/-- Two readers. -/
def twoReaders : Objects Bool := pair (fun _ => .read)

/-- A reader of one second leaves one of ten behind. -/
theorem unlock_ttl_iff_short : ∃ s : State Keyspace Bool, (locks twoReaders).Reachable s ∧
    IsGreatest (remainingTimes twoReaders (step twoReaders s (.unlock false)).server)
      (pttl (step twoReaders s (.unlock false)).server twoReaders.name) := by
  rcases System.exists_exec (next twoReaders) (State.start (Keyspace.empty 0))
    [.lock false 1, .lock true 10]
    (fun s => count twoReaders s.server true = 1 ∧ s.history.granted = [10000, 1000] ∧
      ((keyspace s.server).keys (twoReaders.leaseKey true 1)).any
        (fun e => e.expireAt == some 10000) ∧
      1 ≤ count twoReaders (step twoReaders s (.unlock false)).server true ∧
      ((keyspace (step twoReaders s (.unlock false)).server).keys
        (twoReaders.leaseKey true 1)).isSome) (by decide +kernel) with ⟨s, hexec, hp⟩
  have hs : (locks twoReaders).Reachable s :=
    System.reachable_of_exec _ _ s (.init _ ⟨_, 0, rfl, rfl⟩) hexec
  rcases of_decide_eq_true hp with ⟨hone, hgranted, hlease, hcount, hkey⟩
  refine ⟨s, hs, (unlock_ttl_iff (fun _ => rfl) hs false
    ⟨_, true, 1, by decide, hcount, hkey, rfl⟩).mpr ?_⟩
  -- The lease of ten seconds remains, and it is the latest one granted.
  cases hkeys : (keyspace s.server).keys (twoReaders.leaseKey true 1) with
  | none =>
      rw [hkeys] at hlease
      cases hlease
  | some e =>
      rw [hkeys, Option.any_some, beq_iff_eq] at hlease
      have hself : ¬ (true = false ∧ ((1 : Nat) : Int) = count twoReaders s.server false) :=
        fun h => Bool.noConfusion h.1
      refine ⟨true, 1, by decide, by rw [hone]; decide, hself, e.content, 10000,
        by rw [hkeys, ← hlease], ?_⟩
      rw [hgranted]
      decide

/-- A reader of ten seconds that leaves one of one second behind leaves the
    hash its ten. -/
theorem unlock_ttl_stale : ∃ s : State Keyspace Bool,
    ((locks twoReaders).restrict AtLeastOneSecond).Reachable s ∧ ¬ RecomputesTtl twoReaders s := by
  rcases System.exists_exec (next twoReaders) (State.start (Keyspace.empty 0))
    [.lock false 10, .lock true 1]
    (fun s => count twoReaders (step twoReaders s (.unlock false)).server false = 0 ∧
      count twoReaders (step twoReaders s (.unlock false)).server true = 1 ∧
      ((keyspace (step twoReaders s (.unlock false)).server).keys
        (twoReaders.leaseKey true 1)).isSome ∧
      pttl (step twoReaders s (.unlock false)).server (twoReaders.leaseKey true 1) = 1000 ∧
      pttl (step twoReaders s (.unlock false)).server twoReaders.name = 10000)
    (by decide +kernel) with ⟨s, hexec, hp⟩
  rcases of_decide_eq_true hp with ⟨hfalse, htrue, hkey, hlease, hhash⟩
  refine ⟨s, System.restrict_reachable_of_exec _ _ s (.init _ ⟨_, 0, rfl, rfl⟩) ?_ hexec, ?_⟩
  · intro a ha s
    simp only [List.mem_cons, List.not_mem_nil, or_false] at ha
    rcases ha with rfl | rfl
    · exact (by decide : (1 : Int) ≤ 10)
    · exact le_refl 1
  · intro hall
    -- What is left is the lease of the other reader, which ends in a second, but the
    -- hash has kept its ten.
    rcases (hall false ⟨_, true, 1, by decide, by rw [htrue]; decide, hkey, rfl⟩).1 with
      ⟨j, n, h1, hn, _, hx⟩
    rw [hhash] at hx
    cases j with
    | false =>
        rw [hfalse] at hn
        omega
    | true =>
        rw [htrue] at hn
        obtain rfl : n = 1 := by omega
        rw [hlease] at hx
        exact absurd hx (by decide)

end Runs

end ReadWriteLock

end BlogSample
