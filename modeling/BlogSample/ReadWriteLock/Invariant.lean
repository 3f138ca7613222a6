import BlogSample.ReadWriteLock.Runs

/-!
# The State Invariant of the Locks

What the lock's keys look like in every state of every run: no hash, a hash of
readers, or a hash of one writer, and next to it only lease keys of readers
that hold the lock. What one object does never changes another one's count.

As long as nothing expires, the counts are what the objects have acquired and
not released, and the lease keys of a reader are numbered from 1 to its count.
A release here is a call that finds the object holding the lock. `UnLock` on a
lock that one does not hold releases nothing.

## Main definitions

* `ReadHash`, `WriteHash`, `WellFormed`: The keys of a lock.
* `NothingExpires`: A step at which no key's time passes.
* `Table.LeasesBounded`: A lease belongs to a holder and ends before the lock.
* `Balanced`: Counts and leases are what was acquired and not released.

## Theorems

* `leasesBounded`: Leases are bounded in every session.
* `lock_state_invariant`: The keys of a lock in every run, and the counts and
  leases in a run where nothing expires.
-/

namespace BlogSample

namespace ReadWriteLock

open Redis Server Transition

variable {σ ι : Type}

/-- The hash of a lock that readers hold. -/
structure ReadHash (O : Objects ι) (f : Fields) : Prop where
  mode : f.lookup "mode" = some (.text "read")
  readers : ∃ k ∈ f, k ≠ "mode"
  field : ∀ k ∈ f, k ≠ "mode" → (∃ i, O.kind i = .read ∧ k = O.getLockName i) ∧
    ∃ n : Nat, 1 ≤ n ∧ f.lookup k = some (.int n)
  no_write : ∀ k ∈ f, ∀ x, k ≠ x ++ ":write"

/-- The hash of a lock that a writer holds. -/
structure WriteHash (O : Objects ι) (f : Fields) : Prop where
  mode : f.lookup "mode" = some (.text "write")
  writer : ∃ i, O.kind i = .write ∧
    (∃ n : Nat, 1 ≤ n ∧ f.lookup (O.getLockName i ++ ":write") = some (.int n)) ∧
    ∀ k ∈ f, k = "mode" ∨ k = O.getLockName i ++ ":write"

variable [Server σ]

/-- The keys of a lock: its hash, if any, and leases of readers that hold it. -/
structure WellFormed (O : Objects ι) (s : σ) : Prop where
  hash : (keyspace s).keys O.name = none ∨
    ∃ f e, (keyspace s).keys O.name = some ⟨.hash f, some e⟩ ∧ (ReadHash O f ∨ WriteHash O f)
  keys : ∀ k, ((keyspace s).keys k).isSome → k = O.name ∨
    ∃ (i : ι) (n : Nat), O.kind i = .read ∧ 1 ≤ n ∧ n ≤ count O s i ∧ k = O.leaseKey i n

/-- No key's time passes at this step: an acquire that succeeds gives every
    key it times a time that is ahead, and so does a writer that goes on
    holding the lock. -/
def NothingExpires (O : Objects ι) (s : State σ ι) : Action ι → Prop
  | .lock i timeout => (O.tryInnerLock i timeout s.server).1 = none →
      match O.kind i with
      | .read => 0 < toMillisecond timeout
      | .write => 0 < max (pttl s.server O.name) 0 + toMillisecond timeout
  | .unlock i =>
      O.kind i = .write → 1 < count O s.server i → 0 < s.internalLockLeaseTime i
  | .wait d => ∀ k c e, (keyspace s.server).keys k = some ⟨c, some e⟩ →
      (keyspace s.server).time + d < e

/-- A lease is a reader's that holds the lock, is numbered by its count, and
    does not outlast the lock. -/
def Table.LeasesBounded {kind : ι → Kind} (t : Table kind) : Prop :=
  ∀ i n e, t.lease i n = some e →
    kind i = .read ∧ 1 ≤ n ∧ n ≤ t.count i ∧ ∃ h, t.held = some h ∧ e ≤ h.expireAt

/-- Counts and leases are what was acquired and not released. -/
structure Balanced {kind : ι → Kind} (a : Session kind) : Prop where
  count : ∀ i, a.table.count i + a.history.releases i = a.history.acquires i
  lease : ∀ i, kind i = .read → ∀ n, 1 ≤ n → n ≤ a.table.count i → a.table.lease i n ≠ none

/-- No time passes at this step, for a session. -/
def Session.NothingExpires {kind : ι → Kind} (a : Session kind) : Action ι → Prop
  | .lock i timeout => a.table.Admits i →
      a.table.now < a.table.newEnd i (toMillisecond timeout) ∧
        (kind i = .read → 0 < toMillisecond timeout)
  | .unlock i => kind i = .write → 1 < a.table.count i → 0 < a.leaseTime i
  | .wait d => (∀ h, a.table.held = some h → a.table.now + d < h.expireAt) ∧
      ∀ i n e, a.table.lease i n = some e → a.table.now + d < e

namespace Table

variable {kind : ι → Kind} {t : Table kind} {i : ι}

/-- An acquire makes the lock last at least as long as its lease. -/
theorem add_le_newEnd (t : Table kind) (i : ι) (ms : Int) : t.now + ms ≤ t.newEnd i ms := by
  cases hh : t.held with
  | none => simp only [newEnd, hh, le_refl]
  | some h =>
      have hlive := t.held_live h hh
      cases hk : kind i <;> simp only [newEnd, hh, hk] <;> omega

/-- A reader does not make it end sooner. -/
theorem expireAt_le_newEnd {h : Held kind} (hk : kind i = .read) (hh : t.held = some h)
    (ms : Int) : h.expireAt ≤ t.newEnd i ms := by
  simp only [newEnd, hh, hk]
  exact le_max_left _ _

/-- Time keeps the leases bounded: the lock outlasts them. -/
theorem LeasesBounded.wait (hb : t.LeasesBounded) (d : Nat) : (t.wait d).LeasesBounded := by
  intro j n e he
  rcases Option.filter_eq_some_iff.mp he with ⟨hold, hlive⟩
  rcases hb j n e hold with ⟨hk, h1, hn, h, hh, hle⟩
  have hheld : (t.wait d).held = some h := by
    rw [held_wait hh, if_pos (lt_of_lt_of_le (of_decide_eq_true hlive) hle)]
  rw [count_of_held hh] at hn
  refine ⟨hk, h1, ?_, h, hheld, hle⟩
  rw [count_of_held hheld]
  exact hn

variable [DecidableEq ι]

/-- An acquire keeps the leases bounded. -/
theorem LeasesBounded.acquire (hb : t.LeasesBounded) (i : ι) (ms : Int) :
    (t.acquire i ms).LeasesBounded := by
  by_cases ha : t.Admits i
  · rcases held_acquire ha ms with ⟨h', _, hc, he', hh'⟩
    intro j n e he
    rw [lease_acquire ha] at he
    cases hk : kind i with
    | read =>
        simp only [hk] at he
        -- whichever lease it is, it is over before the lock is
        have hbound : kind j = .read ∧ 1 ≤ n ∧
            n ≤ Function.update t.count i (t.count i + 1) j ∧ e ≤ t.newEnd i ms ∧ t.now < e := by
          by_cases hj : j = i
          · subst hj
            rw [Function.update_self] at he ⊢
            by_cases hn : n = t.count j + 1
            · subst hn
              rw [Function.update_self] at he
              by_cases hms : t.now < t.now + ms
              · rw [if_pos hms, Option.some.injEq] at he
                subst he
                exact ⟨hk, by omega, le_refl _, t.add_le_newEnd j ms, hms⟩
              · rw [if_neg hms] at he
                cases he
            · rw [Function.update_of_ne hn] at he
              rcases hb j n e he with ⟨_, h1, hle, h, hh, hend⟩
              exact ⟨hk, h1, by omega, hend.trans (expireAt_le_newEnd hk hh ms),
                t.lease_live j n e he⟩
          · rw [Function.update_of_ne hj] at he ⊢
            rcases hb j n e he with ⟨hkj, h1, hle, h, hh, hend⟩
            exact ⟨hkj, h1, hle, hend.trans (expireAt_le_newEnd hk hh ms),
              t.lease_live j n e he⟩
        rcases hbound with ⟨hkj, h1, hn, hend, hlive⟩
        rw [if_pos (lt_of_lt_of_le hlive hend)] at hh'
        refine ⟨hkj, h1, ?_, h', hh', he' ▸ hend⟩
        rw [count_of_held hh', hc]
        exact hn
    | write =>
        simp only [hk] at he
        rcases hb j n e he with ⟨hkj, h1, hn, h, hh, _⟩
        -- a writer is not admitted while a reader has a lease
        rw [count_of_held hh] at hn
        have hmode := (h.kind_eq j (by omega)).trans ((ha h hh).1.symm.trans hk)
        rw [hkj] at hmode
        cases hmode
  · rw [acquire_of_not_admits ha]
    exact hb

/-- A release keeps the leases bounded: a reader takes its last one along. -/
theorem LeasesBounded.release (hb : t.LeasesBounded) (i : ι) (ms : Int) :
    (t.release i ms).LeasesBounded := by
  by_cases hi : t.count i = 0
  · rw [release_of_count_eq_zero hi]
    exact hb
  · rcases exists_held hi with ⟨h, hh, hhi⟩
    intro j n e he
    rw [lease_release hi] at he
    cases hk : kind i with
    | read =>
        simp only [hk] at he
        -- A lease that is left over is not the last one of the reader itself.
        have hbound : t.lease j n = some e ∧
            n ≤ Function.update h.count i (h.count i - 1) j := by
          rw [← count_of_held hh]
          by_cases hj : j = i
          · subst hj
            rw [Function.update_self] at he ⊢
            by_cases hn : n = t.count j
            · rw [hn, Function.update_self] at he
              cases he
            · rw [Function.update_of_ne hn] at he
              have := (hb j n e he).2.2.1
              exact ⟨he, by omega⟩
          · rw [Function.update_of_ne hj] at he ⊢
            exact ⟨he, (hb j n e he).2.2.1⟩
        rcases hbound with ⟨hold, hn⟩
        rcases hb j n e hold with ⟨hkj, h1, _, h0, hh0, hend⟩
        obtain rfl : h0 = h := Option.some.inj (hh0.symm.trans hh)
        rcases held_release hh hhi ms with ⟨hl, _⟩ | ⟨h', _, hc, he', hh'⟩
        · have := Held.leave_eq_none_iff.mp hl j
          omega
        · have hlive : t.now < t.endAfterRelease h0 i ms := by
            simp only [endAfterRelease, hk]
            exact t.held_live h0 hh
          rw [if_pos hlive] at hh'
          simp only [endAfterRelease, hk] at he'
          refine ⟨hkj, h1, ?_, h', hh', he' ▸ hend⟩
          rw [count_of_held hh', hc]
          exact hn
    | write =>
        -- A writer holds the lock alone, so there is no reader's lease.
        simp only [hk] at he
        rcases hb j n e he with ⟨hkj, h1, hn, h0, hh0, _⟩
        obtain rfl : h0 = h := Option.some.inj (hh0.symm.trans hh)
        rw [count_of_held hh] at hn
        have hmode := (h0.kind_eq j (by omega)).trans ((h0.kind_eq i hhi).symm.trans hk)
        rw [hkj] at hmode
        cases hmode

end Table

section Sessions

variable [DecidableEq ι] {kind : ι → Kind} {a : Session kind}

/-- Leases are bounded in every session. -/
theorem leasesBounded (ha : (sessions kind).Reachable a) : a.table.LeasesBounded := by
  refine ha.invariant (fun a => a.table.LeasesBounded) ?_ ?_
  · rintro _ ⟨now, rfl⟩ i n e he
    cases he
  · intro a x a' hb hst
    rw [← Option.some.inj hst]
    cases x with
    | lock i timeout => exact hb.acquire i _
    | unlock i => exact hb.release i _
    | wait d => exact hb.wait d

/-- An acquire at which nothing expires keeps the balance. -/
theorem Balanced.lock (hb : Balanced a) (i : ι) (timeout : Int)
    (hok : a.NothingExpires (.lock i timeout)) : Balanced (a.step (.lock i timeout)) := by
  by_cases ha : a.table.Admits i
  · rcases hok ha with ⟨hlive, hread⟩
    have hcount := Table.count_acquire ha hlive
    refine ⟨?_, ?_⟩
    · intro j
      have hj := hb.count j
      simp only [Session.step, if_pos ha, History.acquired, hcount]
      by_cases hji : j = i
      · subst hji
        simp only [Function.update_self]
        omega
      · simp only [Function.update_of_ne hji]
        exact hj
    · intro j hk n h1 hn
      simp only [Session.step, hcount] at hn
      simp only [Session.step, Table.lease_acquire ha]
      by_cases hji : j = i
      · subst hji
        rw [Function.update_self] at hn
        simp only [hk, Function.update_self]
        -- The new lease is set, and the earlier ones are those that were there.
        by_cases hnew : n = a.table.count j + 1
        · rw [hnew, Function.update_self, if_pos (by have := hread hk; omega)]
          exact Option.some_ne_none _
        · rw [Function.update_of_ne hnew]
          exact hb.lease j hk n h1 (by omega)
      · rw [Function.update_of_ne hji] at hn
        cases kind i with
        | read =>
            simp only [Function.update_of_ne hji]
            exact hb.lease j hk n h1 hn
        | write => exact hb.lease j hk n h1 hn
  · have hsame : a.table.acquire i (toMillisecond timeout) = a.table :=
      Table.acquire_of_not_admits ha
    refine ⟨?_, ?_⟩
    · simp only [Session.step, if_neg ha, hsame]
      exact hb.count
    · simp only [Session.step, hsame]
      exact hb.lease

/-- A release at which nothing expires keeps the balance. -/
theorem Balanced.unlock (hb : Balanced a) (i : ι) (hok : a.NothingExpires (.unlock i)) :
    Balanced (a.step (.unlock i)) := by
  have hcount := Table.count_release hok
  refine ⟨?_, ?_⟩
  · intro j
    have hj := hb.count j
    simp only [Session.step, History.released, hcount, ne_eq, decide_not, Bool.not_eq_true',
      decide_eq_false_iff_not]
    -- Releasing what is not held changes no count.
    by_cases hi : a.table.count i = 0
    · rw [if_neg (not_not.mpr hi)]
      by_cases hji : j = i
      · subst hji
        rw [Function.update_self]
        omega
      · rw [Function.update_of_ne hji]
        exact hj
    · rw [if_pos hi]
      by_cases hji : j = i
      · subst hji
        rw [Function.update_self, Function.update_self]
        omega
      · rw [Function.update_of_ne hji, Function.update_of_ne hji]
        exact hj
  · intro j hk n h1 hn
    simp only [Session.step, hcount] at hn
    simp only [Session.step]
    by_cases hi : a.table.count i = 0
    · rw [Table.release_of_count_eq_zero hi]
      exact hb.lease j hk n h1 (by
        by_cases hji : j = i
        · subst hji
          rw [Function.update_self] at hn
          omega
        · rwa [Function.update_of_ne hji] at hn)
    · rw [Table.lease_release hi]
      by_cases hji : j = i
      -- It is the highest lease that is taken along.
      · subst hji
        rw [Function.update_self] at hn
        simp only [hk, Function.update_self]
        rw [Function.update_of_ne (by omega)]
        exact hb.lease j hk n h1 (by omega)
      · rw [Function.update_of_ne hji] at hn
        cases kind i with
        | read =>
            simp only [Function.update_of_ne hji]
            exact hb.lease j hk n h1 hn
        | write => exact hb.lease j hk n h1 hn

/-- Time at which nothing expires keeps the balance. -/
theorem Balanced.wait (hb : Balanced a) (d : Nat) (hok : a.NothingExpires (.wait d)) :
    Balanced (a.step (.wait d)) := by
  rcases hok with ⟨hheld, hlease⟩
  have hcount : (a.table.wait d).count = a.table.count := by
    cases hh : a.table.held with
    | none =>
        funext j
        rw [Table.count_of_none (Table.held_wait_of_none hh d), Table.count_of_none hh]
    | some h =>
        have hh' := Table.held_wait hh d
        rw [if_pos (hheld h hh)] at hh'
        rw [Table.count_of_held hh', Table.count_of_held hh]
  refine ⟨?_, ?_⟩
  · simp only [Session.step, hcount]
    exact hb.count
  · intro j hk n h1 hn
    simp only [Session.step, hcount] at hn
    rcases Option.ne_none_iff_exists'.mp (hb.lease j hk n h1 hn) with ⟨e, he⟩
    simp only [Session.step, Table.wait, he, Option.filter_some,
      if_pos (decide_eq_true (hlease j n e he))]
    exact Option.some_ne_none e

/-- Counts and leases balance in a session where nothing expires. -/
theorem balanced (ha : ((sessions kind).restrict Session.NothingExpires).Reachable a) :
    Balanced a := by
  refine ha.invariant Balanced ?_ ?_
  · rintro _ ⟨now, rfl⟩
    exact ⟨fun _ => rfl, fun i _ n h1 hn => absurd (h1.trans hn) (Nat.not_succ_le_zero 0)⟩
  · rintro a x a' hb ⟨hok, hst⟩
    rw [← Option.some.inj hst]
    cases x with
    | lock i timeout => exact hb.lock i timeout hok
    | unlock i => exact hb.unlock i hok
    | wait d => exact hb.wait d hok

end Sessions

namespace FieldsRepresent

variable {O : Objects ι} {f : Fields} {h : Held O.kind}

/-- The fields of readers. -/
theorem readHash (hf : FieldsRepresent O f h.mode h.count) (hm : h.mode = .read) :
    ReadHash O f := by
  have hread : ∀ j, h.count j ≠ 0 → O.field j = O.getLockName j := fun j hj =>
    Objects.field_of_read ((h.kind_eq j hj).trans hm)
  refine ⟨?_, ?_, ?_, ?_⟩
  · rw [hf.mode, hm]
    rfl
  · rcases h.held with ⟨i, hi⟩
    refine ⟨O.field i, AList.lookup_isSome.mp ?_, O.field_ne_mode i⟩
    rw [hf.field, if_neg hi]
    rfl
  · intro k hk hne
    rcases hf.exists_of_mem hk hne with ⟨j, hj, rfl⟩
    refine ⟨⟨j, (h.kind_eq j hj).trans hm, hread j hj⟩, h.count j, by omega, ?_⟩
    rw [hf.field, if_neg hj]
  · intro k hk x hx
    by_cases hne : k = "mode"
    · have hlen := congrArg String.length (hne.symm.trans hx)
      have hmodelen : ("mode" : String).length = 4 := by decide
      have hwritelen : (":write" : String).length = 6 := by decide
      rw [String.length_append, hmodelen, hwritelen] at hlen
      omega
    · rcases hf.exists_of_mem hk hne with ⟨j, hj, rfl⟩
      rw [hread j hj] at hx
      exact O.getLockName_ne_append_write j x hx

/-- The fields of a writer. -/
theorem writeHash (hf : FieldsRepresent O f h.mode h.count) (hm : h.mode = .write) :
    WriteHash O f := by
  rcases h.held with ⟨i, hi⟩
  have hwrite : O.field i = O.getLockName i ++ ":write" :=
    Objects.field_of_write ((h.kind_eq i hi).trans hm)
  refine ⟨?_, i, (h.kind_eq i hi).trans hm, ⟨h.count i, by omega, ?_⟩, ?_⟩
  · rw [hf.mode, hm]
    rfl
  · rw [← hwrite, hf.field, if_neg hi]
  · intro k hk
    by_cases hne : k = "mode"
    · exact Or.inl hne
    · rcases hf.exists_of_mem hk hne with ⟨j, hj, rfl⟩
      rw [← h.sole hm i j hi hj]
      exact Or.inr hwrite

end FieldsRepresent

section Runs

variable [LawfulServer σ] {O : Objects ι}

/-- The keys of a server that stores a lease table are well formed. -/
theorem Represents.wellFormed {s : σ} {t : Table O.kind} (hr : Represents O (keyspace s) t)
    (hb : t.LeasesBounded) : WellFormed O s := by
  refine ⟨?_, ?_⟩
  · cases hh : t.held with
    | none => exact Or.inl (hr.keys_name_eq_none hh)
    | some h =>
        rcases hr.exists_hash hh with ⟨f, hkey, hf⟩
        refine Or.inr ⟨f, h.expireAt, hkey, ?_⟩
        cases hm : h.mode with
        | read => exact Or.inl (hf.readHash hm)
        | write => exact Or.inr (hf.writeHash hm)
  · intro k hk
    by_contra hno
    rw [not_or] at hno
    -- A key that is neither the hash nor a lease in use is not there.
    have hnone : (keyspace s).keys k = none := by
      refine hr.other k hno.1 ?_
      rintro i n rfl
      refine hno.2 ?_
      rw [hr.lease i n, Option.isSome_map] at hk
      rcases Option.isSome_iff_exists.mp hk with ⟨e, he⟩
      rcases hb i n e he with ⟨hki, h1, hn, _⟩
      refine ⟨i, n, hki, h1, ?_, rfl⟩
      rw [hr.count_eq]
      exact Int.ofNat_le.mpr hn
    rw [hnone] at hk
    exact Bool.false_ne_true hk

variable [DecidableEq ι]

omit [DecidableEq ι] in
/-- Where nothing expires for the code, nothing expires for the session. -/
theorem nothingExpires_session (s : State σ ι) (a : Session O.kind) (x : Action ι)
    (hsim : Simulates O s a) (hok : NothingExpires O s x) : a.NothingExpires x := by
  cases x with
  | lock i timeout =>
      intro ha
      have hpos := hok ((tryInnerLock_eq_none_iff hsim.server i timeout).mpr ha)
      -- The new end is no earlier than the script's, which is in the future.
      cases hk : O.kind i with
      | read =>
          simp only [hk] at hpos
          have := a.table.add_le_newEnd i (toMillisecond timeout)
          exact ⟨by omega, fun _ => hpos⟩
      | write =>
          simp only [hk] at hpos
          refine ⟨?_, fun hr => nomatch hr⟩
          -- A writer's new end counts from what `PTTL` replies, if the hash is there.
          cases hh : a.table.held with
          | none =>
              rw [pttl_of_none (hsim.server.keys_name_eq_none hh)] at hpos
              simp only [Table.newEnd, hh]
              omega
          | some h =>
              have hlive := a.table.held_live h hh
              rw [hsim.server.pttl_name hh] at hpos
              simp only [Table.newEnd, hh, hk]
              omega
  | unlock i =>
      intro hk h1
      have hpos := hok hk (by
        rw [hsim.server.count_eq]
        exact Int.ofNat_lt.mpr h1)
      rwa [hsim.leaseTime] at hpos
  | wait d =>
      refine ⟨?_, ?_⟩
      · intro h hh
        rcases hsim.server.exists_hash hh with ⟨f, hkey, _⟩
        have := hok _ _ _ hkey
        rwa [hsim.server.time] at this
      · intro i n e he
        have hkey := hsim.server.lease i n
        rw [he] at hkey
        have := hok _ _ _ hkey
        rwa [hsim.server.time] at this

omit [DecidableEq ι] in
/-- Time changes no key but by taking it away. -/
theorem keys_wait (s : σ) (d : Nat) (k : String) :
    (keyspace (wait s d)).keys k = (keyspace s).keys k ∨
      (keyspace (wait s d)).keys k = none := by
  rw [wait_eq]
  simp only [Keyspace.wait]
  cases (keyspace s).keys k with
  | none => exact .inl rfl
  | some e =>
      rw [Option.filter_some]
      by_cases hlive : e.expireAt.all (fun x => (keyspace s).time + d < x) = true
      · exact .inl (if_pos hlive)
      · exact .inr (if_neg hlive)

/-- A call of one object changes nobody else's count. -/
theorem count_of_ne {s s' : State σ ι} (hs : (locks O).Reachable s) {i j : ι} (hj : j ≠ i) :
    (∀ timeout, (locks O).step s (.lock i timeout) s' →
      count O s'.server j = count O s.server j) ∧
    ((locks O).step s (.unlock i) s' → count O s'.server j = count O s.server j) := by
  rcases exists_session hs with ⟨a, -, hsim⟩
  refine ⟨fun timeout hst => ?_, fun hst => ?_⟩
  · rw [(next_simulates hsim hst).server.count_eq, hsim.server.count_eq]
    exact congrArg Nat.cast (Table.count_acquire_of_ne hj _)
  · rw [(next_simulates hsim hst).server.count_eq, hsim.server.count_eq]
    exact congrArg Nat.cast (Table.count_release_of_ne hj _)

/-- In every state of every run the lock's keys are well formed. A call of one
    object changes nobody else's count, and time changes the hash only by
    taking it away. If moreover nothing expires, each count is what the object
    has acquired and not released, and the lease keys of a reader are those
    numbered from 1 to its count. -/
theorem lock_state_invariant (O : Objects ι) :
    (∀ s : State σ ι, (locks O).Reachable s →
      WellFormed O s.server ∧
      (∀ i j s', j ≠ i →
        (∀ timeout, (locks O).step s (.lock i timeout) s' →
          count O s'.server j = count O s.server j) ∧
        ((locks O).step s (.unlock i) s' → count O s'.server j = count O s.server j)) ∧
      ∀ d s', (locks O).step s (.wait d) s' →
        (keyspace s'.server).keys O.name = (keyspace s.server).keys O.name ∨
        (keyspace s'.server).keys O.name = none) ∧
    ∀ s : State σ ι, ((locks O).restrict (NothingExpires O)).Reachable s → ∀ i,
      count O s.server i + s.history.releases i = s.history.acquires i ∧
      (O.kind i = .read → ∀ n : Nat,
        ((keyspace s.server).keys (O.leaseKey i n)).isSome ↔
          1 ≤ n ∧ n ≤ count O s.server i) := by
  refine ⟨?_, ?_⟩
  · intro s hs
    -- The keys stand for a table, and the table says it all.
    rcases exists_session hs with ⟨a, ha, hsim⟩
    refine ⟨hsim.server.wellFormed (leasesBounded ha), ?_, ?_⟩
    · exact fun i j s' hj => count_of_ne hs hj
    · intro d s' hst
      rw [← (next_eq_some_iff.mp hst).2]
      exact keys_wait s.server d O.name
  · intro s hs i
    -- Where nothing expires, the session is balanced too.
    rcases exists_session_restrict nothingExpires_session hs with ⟨a, ha, hsim⟩
    have hbal := balanced ha
    rw [hsim.server.count_eq, hsim.history]
    refine ⟨by have := hbal.count i; omega, ?_⟩
    intro hk n
    rw [hsim.server.lease i n, Option.isSome_map]
    constructor
    · intro he
      rcases Option.isSome_iff_exists.mp he with ⟨e, he⟩
      rcases leasesBounded ha.of_restrict i n e he with ⟨_, h1, hn, _⟩
      exact ⟨h1, Int.ofNat_le.mpr hn⟩
    · rintro ⟨h1, hn⟩
      exact Option.isSome_iff_ne_none.mpr (hbal.lease i hk n h1 (Int.ofNat_le.mp hn))

/-- Two readers, one of which acquires twice, and the other releases. -/
theorem lock_state_invariant_pair : ∃ s : State Keyspace Bool,
    ((locks (pair (fun _ => .read))).restrict (NothingExpires (pair (fun _ => .read)))).Reachable
      s ∧ WellFormed (pair (fun _ => .read)) s.server ∧
    count (pair (fun _ => .read)) s.server false + s.history.releases false = 2 ∧
    count (pair (fun _ => .read)) s.server true + s.history.releases true = 1 ∧
    s.history.releases true = 1 := by
  rcases System.exists_exec (next (pair (fun _ => .read))) (State.start (Keyspace.empty 0))
    [.lock false 10, .lock true 1, .lock false 5, .unlock true]
    (fun s => s.history.acquires false = 2 ∧ s.history.acquires true = 1 ∧
      s.history.releases true = 1) (by decide +kernel) with ⟨s, hexec, hp⟩
  rcases of_decide_eq_true hp with ⟨hfalse, htrue, hrelease⟩
  have hs : ((locks (pair (fun _ => .read))).restrict
      (NothingExpires (pair (fun _ => .read)))).Reachable s := by
    -- The times are positive, and readers may always release.
    refine System.restrict_reachable_of_exec _ _ s (.init _ ⟨_, 0, rfl, rfl⟩) ?_ hexec
    intro x hx s
    simp only [List.mem_cons, List.not_mem_nil, or_false] at hx
    rcases hx with rfl | rfl | rfl | rfl
    · exact fun _ => (by decide : 0 < toMillisecond 10)
    · exact fun _ => (by decide : 0 < toMillisecond 1)
    · exact fun _ => (by decide : 0 < toMillisecond 5)
    · exact fun hk => absurd hk (by decide)
  have hinv := lock_state_invariant (σ := Keyspace) (pair (fun _ => .read))
  refine ⟨s, hs, (hinv.1 s hs.of_restrict).1, ?_, ?_, hrelease⟩
  · rw [(hinv.2 s hs false).1, hfalse]
    rfl
  · rw [(hinv.2 s hs true).1, htrue]
    rfl

end Runs

end ReadWriteLock

end BlogSample
