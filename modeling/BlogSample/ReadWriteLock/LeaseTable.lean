import BlogSample.ReadWriteLock.Base
import Mathlib.Logic.Function.Basic
import Mathlib.Order.Basic
import Mathlib.Order.Lattice
import Mathlib.Tactic.SplitIfs

/-!
# Lease Tables

What the locks are for, without strings or scripts: one lock that readers
share or one writer has, each as many times as it has acquired, for as long as
a lease runs. `Held` is a lock that someone has. It carries what makes it a
read/write lock, so there is no value for a lock that a writer shares or that
nobody has.

A table has a clock and only what is still running: `held_live` and
`lease_live` say that whatever it holds ends in the future. An operation that
would store something past its time stores nothing instead.

A reader's acquires are also timed one by one. Nothing here uses those leases
to decide who may enter. They are in the table because the code keeps them.

## Main definitions

* `Held`: A lock that is held, its holders and when it ends.
* `Held.fresh`, `Held.again`, `Held.leave`: The first holder, one more
  acquire and one less.
* `Table`, `Table.Admits`, `Table.acquire`, `Table.release`, `Table.wait`:
  The lock over time.

## Theorems

* `Held.leave_eq_none_iff`, `Held.count_of_leave`: What is left when a holder
  leaves.
* `Table.count_acquire`, `Table.count_release`: Who holds how often.
* `Table.count_acquire_of_ne`, `Table.count_release_of_ne`: Nobody else's
  count changes.
-/

namespace BlogSample

namespace ReadWriteLock

variable {ι : Type} {kind : ι → Kind}

/-- A lock that is held: by readers or by a writer, how often by each, and
    until when. -/
structure Held (kind : ι → Kind) where
  mode : Kind
  count : ι → Nat
  expireAt : Int
  held : ∃ i, count i ≠ 0
  kind_eq : ∀ i, count i ≠ 0 → kind i = mode
  sole : mode = .write → ∀ i j, count i ≠ 0 → count j ≠ 0 → i = j

namespace Held

/-- An object may acquire a held lock if it is a reader among readers, or the
    writer that holds it. -/
def Admits (h : Held kind) (i : ι) : Prop :=
  kind i = h.mode ∧ (kind i = .write → h.count i ≠ 0)

instance (h : Held kind) (i : ι) : Decidable (h.Admits i) :=
  inferInstanceAs (Decidable (_ ∧ _))

/-- The same holders until another time. -/
def endAt (h : Held kind) (e : Int) : Held kind := { h with expireAt := e }

end Held

section Update

variable [DecidableEq ι]

/-- Counting one up leaves nobody out. -/
theorem ne_zero_of_update_succ {c : ι → Nat} {i j : ι} (hi : c i ≠ 0)
    (hj : Function.update c i (c i + 1) j ≠ 0) : c j ≠ 0 := by
  by_cases hji : j = i
  · rwa [hji]
  · rwa [Function.update_of_ne hji] at hj

/-- Counting one down brings nobody in. -/
theorem ne_zero_of_update_pred {c : ι → Nat} {i j : ι}
    (hj : Function.update c i (c i - 1) j ≠ 0) : c j ≠ 0 := by
  intro h0
  apply hj
  by_cases hji : j = i
  · rw [hji, Function.update_self, ← hji, h0]
  · rwa [Function.update_of_ne hji]

end Update

namespace Held

variable [DecidableEq ι]

/-- The lock as its first holder has it. -/
def fresh (kind : ι → Kind) (i : ι) (e : Int) : Held kind where
  mode := kind i
  count := Function.update (fun _ => 0) i 1
  expireAt := e
  held := ⟨i, by rw [Function.update_self]; exact Nat.one_ne_zero⟩
  kind_eq := by
    intro j hj
    by_cases hji : j = i
    · rw [hji]
    · rw [Function.update_of_ne hji] at hj
      exact absurd rfl hj
  sole := by
    have honly : ∀ j, Function.update (fun _ => 0) i 1 j ≠ 0 → j = i := by
      intro j hj
      by_contra hji
      rw [Function.update_of_ne hji] at hj
      exact hj rfl
    intro _ j k hj hk
    exact (honly j hj).trans (honly k hk).symm

/-- One more acquire by an object that is admitted. -/
def again (h : Held kind) (i : ι) (hi : h.Admits i) (e : Int) : Held kind where
  mode := h.mode
  count := Function.update h.count i (h.count i + 1)
  expireAt := e
  held := ⟨i, by rw [Function.update_self]; exact Nat.succ_ne_zero _⟩
  kind_eq := by
    intro j hj
    by_cases hji : j = i
    · rw [hji]
      exact hi.1
    · rw [Function.update_of_ne hji] at hj
      exact h.kind_eq j hj
  sole := by
    intro hw
    -- a writer that is admitted is a holder already
    have hci : h.count i ≠ 0 := hi.2 (hi.1.trans hw)
    intro j k hj hk
    exact h.sole hw j k (ne_zero_of_update_succ hci hj) (ne_zero_of_update_succ hci hk)

open Classical in
/-- One acquire less by an object, `none` if that was the last of all. -/
noncomputable def leave (h : Held kind) (i : ι) : Option (Held kind) :=
  if hne : ∃ j, Function.update h.count i (h.count i - 1) j ≠ 0 then
    some
      { mode := h.mode
        count := Function.update h.count i (h.count i - 1)
        expireAt := h.expireAt
        held := hne
        kind_eq := fun j hj => h.kind_eq j (ne_zero_of_update_pred hj)
        sole := fun hw j k hj hk =>
          h.sole hw j k (ne_zero_of_update_pred hj) (ne_zero_of_update_pred hk) }
  else none

variable {h h' : Held kind} {i j : ι}

/-- Nobody is left when no count is. -/
theorem leave_eq_none_iff :
    h.leave i = none ↔ ∀ j, Function.update h.count i (h.count i - 1) j = 0 := by
  by_cases hne : ∃ j, Function.update h.count i (h.count i - 1) j ≠ 0
  · refine iff_of_false ?_ (fun hall => hne.elim (fun j hj => hj (hall j)))
    rw [leave, dif_pos hne]
    exact Option.some_ne_none _
  · refine iff_of_true (dif_neg hne) (fun j => ?_)
    by_contra hj
    exact hne ⟨j, hj⟩

/-- What is left when somebody is. -/
theorem of_leave (hl : h.leave i = some h') :
    h'.mode = h.mode ∧ h'.count = Function.update h.count i (h.count i - 1) ∧
      h'.expireAt = h.expireAt := by
  by_cases hne : ∃ j, Function.update h.count i (h.count i - 1) j ≠ 0
  · simp only [leave, dif_pos hne, Option.some.injEq] at hl
    rw [← hl]
    exact ⟨rfl, rfl, rfl⟩
  · simp only [leave, dif_neg hne] at hl
    cases hl

/-- A writer leaves the lock to nobody but itself. -/
theorem leave_eq_none_of_write (hw : h.mode = .write) (hi : h.count i ≠ 0) :
    h.leave i = none ↔ h.count i ≤ 1 := by
  rw [leave_eq_none_iff]
  constructor
  · intro hall
    have := hall i
    rw [Function.update_self] at this
    omega
  · intro h1 j
    by_contra hj
    have hji : j = i := h.sole hw j i (ne_zero_of_update_pred hj) hi
    rw [hji, Function.update_self] at hj
    omega

end Held

/-- A lock over time: the clock, who holds it if anyone does, and when each
    acquire of an object ends. -/
structure Table (kind : ι → Kind) where
  now : Int
  held : Option (Held kind)
  lease : ι → Nat → Option Int
  held_live : ∀ h, held = some h → now < h.expireAt
  lease_live : ∀ i n e, lease i n = some e → now < e

namespace Table

/-- A free lock. -/
def empty (now : Int) : Table kind where
  now := now
  held := none
  lease := fun _ _ => none
  held_live := fun _ h => nomatch h
  lease_live := fun _ _ _ h => nomatch h

/-- How often an object holds the lock. -/
def count (t : Table kind) (i : ι) : Nat :=
  match t.held with
  | none => 0
  | some h => h.count i

/-- Store a holder, if its time is ahead. -/
def withHeld (t : Table kind) (h : Option (Held kind)) : Table kind where
  now := t.now
  held := h.filter (fun h => t.now < h.expireAt)
  lease := t.lease
  held_live := by
    intro h' hh'
    exact of_decide_eq_true (Option.filter_eq_some_iff.mp hh').2
  lease_live := t.lease_live

/-- An object may acquire the lock: it is free, or its holders admit it. -/
def Admits (t : Table kind) (i : ι) : Prop := ∀ h, t.held = some h → h.Admits i

/-- Time passes. -/
def wait (t : Table kind) (d : Nat) : Table kind where
  now := t.now + d
  held := t.held.filter (fun h => t.now + d < h.expireAt)
  lease := fun i n => (t.lease i n).filter (fun e => t.now + d < e)
  held_live := fun _ hh => of_decide_eq_true (Option.filter_eq_some_iff.mp hh).2
  lease_live := fun _ _ _ he => of_decide_eq_true (Option.filter_eq_some_iff.mp he).2

/-- When a lock that an object acquires for `ms` milliseconds will end. -/
def newEnd (t : Table kind) (i : ι) (ms : Int) : Int :=
  match t.held with
  | none => t.now + ms
  | some h =>
      match kind i with
      | .read => max h.expireAt (t.now + ms)
      | .write => h.expireAt + ms

/-- When a lock ends that an object goes on holding after a release. -/
def endAfterRelease (t : Table kind) (h : Held kind) (i : ι) (ms : Int) : Int :=
  match kind i with
  | .read => h.expireAt
  | .write => t.now + ms

variable {t : Table kind} {h : Held kind} {i j : ι} {ms : Int}

theorem count_of_held (hh : t.held = some h) : t.count = h.count := by
  funext j
  simp only [count, hh]

theorem count_of_none (hh : t.held = none) (j : ι) : t.count j = 0 := by
  simp only [count, hh]

/-- A lock that somebody has is held. -/
theorem exists_held (hi : t.count i ≠ 0) : ∃ h, t.held = some h ∧ h.count i ≠ 0 := by
  cases hh : t.held with
  | none => exact absurd (count_of_none hh i) hi
  | some h =>
      rw [count_of_held hh] at hi
      exact ⟨h, rfl, hi⟩

/-- Time takes the lock away or leaves it as it is. -/
theorem held_wait (hh : t.held = some h) (d : Nat) :
    (t.wait d).held = if t.now + d < h.expireAt then some h else none := by
  simp only [wait, hh, Option.filter_some, decide_eq_true_eq]

theorem held_wait_of_none (hh : t.held = none) (d : Nat) : (t.wait d).held = none := by
  simp only [wait, hh, Option.filter_none]

/-- Time makes no count greater. -/
theorem count_wait_le (t : Table kind) (d : Nat) (j : ι) : (t.wait d).count j ≤ t.count j := by
  cases hh : t.held with
  | none =>
      rw [count_of_none (held_wait_of_none hh d)]
      exact Nat.zero_le _
  | some h =>
      have hwait := held_wait hh d
      by_cases hlive : t.now + d < h.expireAt
      · rw [if_pos hlive] at hwait
        rw [count_of_held hwait, count_of_held hh]
      · rw [if_neg hlive] at hwait
        rw [count_of_none hwait]
        exact Nat.zero_le _

/-- The only holder whose acquire can end the lock at once is a writer. -/
theorem write_of_newEnd_le (ha : t.Admits i) (hh : t.held = some h)
    (hms : ¬ t.now < t.newEnd i ms) : kind i = .write ∧ h.mode = .write ∧ h.count i ≠ 0 := by
  cases hk : kind i with
  | read =>
      simp only [newEnd, hh, hk] at hms
      exact absurd (lt_of_lt_of_le (t.held_live h hh) (le_max_left _ _)) hms
  | write => exact ⟨rfl, (ha h hh).1 ▸ hk, (ha h hh).2 hk⟩

variable [DecidableEq ι]

/-- Store a lease, if its time is ahead. -/
def withLease (t : Table kind) (i : ι) (n : Nat) (e : Option Int) : Table kind where
  now := t.now
  held := t.held
  lease := Function.update t.lease i
    (Function.update (t.lease i) n (e.filter (fun e => t.now < e)))
  held_live := t.held_live
  lease_live := by
    intro j m x hx
    by_cases hj : j = i
    · subst hj
      rw [Function.update_self] at hx
      by_cases hm : m = n
      · subst hm
        rw [Function.update_self] at hx
        exact of_decide_eq_true (Option.filter_eq_some_iff.mp hx).2
      · rw [Function.update_of_ne hm] at hx
        exact t.lease_live j m x hx
    · rw [Function.update_of_ne hj] at hx
      exact t.lease_live j m x hx

/-- An acquire that is tried for `ms` milliseconds. A reader makes the lock
    last at least that long from now, a writer makes it last that much
    longer. -/
def acquire (t : Table kind) (i : ι) (ms : Int) : Table kind :=
  match t.held with
  | none =>
      match kind i with
      | .read => (t.withLease i 1 (some (t.now + ms))).withHeld
          (some (.fresh kind i (t.now + ms)))
      | .write => t.withHeld (some (.fresh kind i (t.now + ms)))
  | some h =>
      if hi : h.Admits i then
        match kind i with
        | .read => (t.withLease i (h.count i + 1) (some (t.now + ms))).withHeld
            (some (h.again i hi (max h.expireAt (t.now + ms))))
        | .write => t.withHeld (some (h.again i hi (h.expireAt + ms)))
      else t

/-- One acquire of an object is released, if it holds any. A reader takes the
    lease of the acquire along, and the lock lasts as long as before. A writer
    that goes on holding makes it last `ms` from now. -/
noncomputable def release (t : Table kind) (i : ι) (ms : Int) : Table kind :=
  match t.held with
  | none => t
  | some h =>
      if h.count i = 0 then t
      else
        match kind i with
        | .read => (t.withLease i (h.count i) none).withHeld (h.leave i)
        | .write => t.withHeld ((h.leave i).map (fun h => h.endAt (t.now + ms)))

theorem acquire_of_not_admits (ha : ¬ t.Admits i) : t.acquire i ms = t := by
  cases hh : t.held with
  | none => exact absurd (fun h h' => by rw [hh] at h'; cases h') ha
  | some h =>
      have hno : ¬ h.Admits i := fun hi => ha (fun h' hh' => by
        rw [hh, Option.some.injEq] at hh'
        exact hh' ▸ hi)
      simp only [acquire, hh, dif_neg hno]

/-- What an acquire that is admitted does to the holder. -/
theorem held_acquire (ha : t.Admits i) (ms : Int) :
    ∃ h : Held kind, h.mode = kind i ∧
      h.count = Function.update t.count i (t.count i + 1) ∧ h.expireAt = t.newEnd i ms ∧
      (t.acquire i ms).held = if t.now < t.newEnd i ms then some h else none := by
  cases hh : t.held with
  | none =>
      have hcount : t.count = fun _ => 0 := funext (count_of_none hh)
      -- Nobody holds the lock: it is of the kind of the caller.
      refine ⟨.fresh kind i (t.now + ms), rfl, ?_, ?_, ?_⟩
      · rw [hcount]
        rfl
      · simp only [newEnd, hh]
        rfl
      · cases hk : kind i <;>
          simp only [acquire, hh, hk, newEnd, withHeld, withLease, Held.fresh,
            Option.filter_some, decide_eq_true_eq]
  | some h =>
      have hi : h.Admits i := ha h hh
      rw [count_of_held hh]
      cases hk : kind i with
      -- A reader extends the end, if at all.
      | read =>
          refine ⟨h.again i hi (max h.expireAt (t.now + ms)), hi.1 ▸ hk, rfl, ?_, ?_⟩
          · simp only [newEnd, hh, hk]
            rfl
          · simp only [acquire, hh, hk, dif_pos hi, newEnd, withHeld, withLease, Held.again,
              Option.filter_some, decide_eq_true_eq]
      -- A writer adds to it.
      | write =>
          refine ⟨h.again i hi (h.expireAt + ms), hi.1 ▸ hk, rfl, ?_, ?_⟩
          · simp only [newEnd, hh, hk]
            rfl
          · simp only [acquire, hh, hk, dif_pos hi, newEnd, withHeld, Held.again,
              Option.filter_some, decide_eq_true_eq]

/-- What an acquire that is admitted does to the leases. -/
theorem lease_acquire (ha : t.Admits i) (ms : Int) :
    (t.acquire i ms).lease =
      match kind i with
      | .read => Function.update t.lease i (Function.update (t.lease i) (t.count i + 1)
          (if t.now < t.now + ms then some (t.now + ms) else none))
      | .write => t.lease := by
  cases hh : t.held with
  | none =>
      cases hk : kind i <;>
        simp only [acquire, hh, hk, withHeld, withLease, count_of_none hh, Option.filter_some,
          decide_eq_true_eq, Nat.zero_add]
  | some h =>
      have hi : h.Admits i := ha h hh
      cases hk : kind i <;>
        simp only [acquire, hh, hk, dif_pos hi, withHeld, withLease, count_of_held hh,
          Option.filter_some, decide_eq_true_eq]

@[simp] theorem now_acquire (t : Table kind) (i : ι) (ms : Int) :
    (t.acquire i ms).now = t.now := by
  by_cases ha : t.Admits i
  · cases hh : t.held with
    | none => cases hk : kind i <;> simp only [acquire, hh, hk, withHeld, withLease]
    | some h =>
        have hi : h.Admits i := ha h hh
        cases hk : kind i <;> simp only [acquire, hh, hk, dif_pos hi, withHeld, withLease]
  · rw [acquire_of_not_admits ha]

theorem release_of_count_eq_zero (hi : t.count i = 0) : t.release i ms = t := by
  cases hh : t.held with
  | none => simp only [release, hh]
  | some h =>
      rw [count_of_held hh] at hi
      simp only [release, hh, if_pos hi]

/-- What a release does to the holder: it is gone, or it has one less. -/
theorem held_release (hh : t.held = some h) (hi : h.count i ≠ 0) (ms : Int) :
    (h.leave i = none ∧ (t.release i ms).held = none) ∨
      ∃ h' : Held kind, h'.mode = h.mode ∧
        h'.count = Function.update h.count i (h.count i - 1) ∧
        h'.expireAt = t.endAfterRelease h i ms ∧
        (t.release i ms).held =
          if t.now < t.endAfterRelease h i ms then some h' else none := by
  cases hl : h.leave i with
  | none =>
      -- The last acquire is released, and the lock with it.
      left
      refine ⟨rfl, ?_⟩
      cases hk : kind i <;>
        simp only [release, hh, if_neg hi, hk, hl, withHeld, withLease, Option.map_none,
          Option.filter_none]
  | some h' =>
      right
      rcases Held.of_leave hl with ⟨hm, hc, he⟩
      cases hk : kind i with
      -- The end is that of the latest lease that is left.
      | read =>
          refine ⟨h', hm, hc, ?_, ?_⟩
          · simp only [endAfterRelease, hk, he]
          · simp only [release, hh, if_neg hi, hk, hl, withHeld, withLease, endAfterRelease,
              Option.filter_some, decide_eq_true_eq, he]
      -- The end is the time that was passed.
      | write =>
          refine ⟨h'.endAt (t.now + ms), hm, hc, ?_, ?_⟩
          · simp only [endAfterRelease, hk]
            rfl
          · simp only [release, hh, if_neg hi, hk, hl, withHeld, endAfterRelease,
              Option.map_some, Option.filter_some, Held.endAt, decide_eq_true_eq]

/-- What a release does to the leases. -/
theorem lease_release (hi : t.count i ≠ 0) (ms : Int) :
    (t.release i ms).lease =
      match kind i with
      | .read => Function.update t.lease i (Function.update (t.lease i) (t.count i) none)
      | .write => t.lease := by
  rcases exists_held hi with ⟨h, hh, hhi⟩
  cases hk : kind i <;>
    simp only [release, hh, if_neg hhi, hk, withHeld, withLease, count_of_held hh,
      Option.filter_none]

@[simp] theorem now_release (t : Table kind) (i : ι) (ms : Int) :
    (t.release i ms).now = t.now := by
  by_cases hi : t.count i = 0
  · rw [release_of_count_eq_zero hi]
  · rcases exists_held hi with ⟨h, hh, hhi⟩
    cases hk : kind i <;> simp only [release, hh, if_neg hhi, hk, withHeld, withLease]

/-- An acquire whose time is ahead counts. -/
theorem count_acquire (ha : t.Admits i) (hms : t.now < t.newEnd i ms) :
    (t.acquire i ms).count = Function.update t.count i (t.count i + 1) := by
  rcases held_acquire ha ms with ⟨h, _, hc, _, hh⟩
  rw [if_pos hms] at hh
  rw [count_of_held hh, hc]

/-- An acquire counts once at most. -/
theorem count_acquire_le (i j : ι) (ms : Int) :
    (t.acquire i ms).count j ≤ Function.update t.count i (t.count i + 1) j := by
  by_cases ha : t.Admits i
  · rcases held_acquire ha ms with ⟨h, _, hc, _, hh⟩
    by_cases hms : t.now < t.newEnd i ms
    · rw [count_acquire ha hms]
    · rw [if_neg hms] at hh
      rw [count_of_none hh]
      exact Nat.zero_le _
  · rw [acquire_of_not_admits ha]
    by_cases hj : j = i
    · rw [hj, Function.update_self]
      exact Nat.le_succ _
    · rw [Function.update_of_ne hj]

/-- An acquire changes nobody else's count. -/
theorem count_acquire_of_ne (hj : j ≠ i) (ms : Int) :
    (t.acquire i ms).count j = t.count j := by
  by_cases ha : t.Admits i
  · by_cases hms : t.now < t.newEnd i ms
    · rw [count_acquire ha hms, Function.update_of_ne hj]
    · rcases held_acquire ha ms with ⟨_, _, _, _, hh'⟩
      rw [if_neg hms] at hh'
      rw [count_of_none hh']
      cases hh : t.held with
      | none => rw [count_of_none hh]
      | some h =>
          rcases write_of_newEnd_le ha hh hms with ⟨_, hw, hi⟩
          rw [count_of_held hh]
          by_contra h0
          exact hj (h.sole hw j i (Ne.symm h0) hi)
  · rw [acquire_of_not_admits ha]

/-- Nor can a release, but for a writer that goes on holding. -/
theorem write_of_endAfterRelease_le {h' : Held kind} (hh : t.held = some h)
    (hi : h.count i ≠ 0) (hc : h'.count = Function.update h.count i (h.count i - 1))
    (hms : ¬ t.now < t.endAfterRelease h i ms) :
    kind i = .write ∧ h.mode = .write ∧ 1 < h.count i ∧ ms ≤ 0 := by
  cases hk : kind i with
  | read =>
      simp only [endAfterRelease, hk] at hms
      exact absurd (t.held_live h hh) hms
  | write =>
      have hw : h.mode = .write := (h.kind_eq i hi) ▸ hk
      simp only [endAfterRelease, hk] at hms
      rcases h'.held with ⟨j, hj⟩
      rw [hc] at hj
      have hji : j = i := h.sole hw j i (ne_zero_of_update_pred hj) hi
      rw [hji, Function.update_self] at hj
      exact ⟨rfl, hw, by omega, by omega⟩

/-- A release counts, unless it cuts a writer's time to nothing. -/
theorem count_release (hms : kind i = .write → 1 < t.count i → 0 < ms) :
    (t.release i ms).count = Function.update t.count i (t.count i - 1) := by
  by_cases hi : t.count i = 0
  · rw [release_of_count_eq_zero hi, hi, Nat.zero_sub, ← hi, Function.update_eq_self]
  · rcases exists_held hi with ⟨h, hh, hhi⟩
    rw [count_of_held hh] at hms ⊢
    rcases held_release hh hhi ms with ⟨hl, hn⟩ | ⟨h', _, hc, _, hh'⟩
    · funext j
      rw [count_of_none hn, Held.leave_eq_none_iff.mp hl j]
    · by_cases hlive : t.now < t.endAfterRelease h i ms
      · rw [if_pos hlive] at hh'
        rw [count_of_held hh', hc]
      · rcases write_of_endAfterRelease_le hh hhi hc hlive with ⟨hk, _, h1, hle⟩
        exact absurd (hms hk h1) (by omega)

/-- A release makes no count greater. -/
theorem count_release_le (i j : ι) (ms : Int) : (t.release i ms).count j ≤ t.count j := by
  by_cases hi : t.count i = 0
  · rw [release_of_count_eq_zero hi]
  · rcases exists_held hi with ⟨h, hh, hhi⟩
    rcases held_release hh hhi ms with ⟨_, hn⟩ | ⟨h', _, hc, _, hh'⟩
    · rw [count_of_none hn]
      exact Nat.zero_le _
    · by_cases hlive : t.now < t.endAfterRelease h i ms
      · rw [if_pos hlive] at hh'
        rw [count_of_held hh', hc, count_of_held hh]
        by_cases hj : j = i
        · rw [hj, Function.update_self]
          exact Nat.sub_le _ _
        · rw [Function.update_of_ne hj]
      · rw [if_neg hlive] at hh'
        rw [count_of_none hh']
        exact Nat.zero_le _

/-- A release changes nobody else's count. -/
theorem count_release_of_ne (hj : j ≠ i) (ms : Int) :
    (t.release i ms).count j = t.count j := by
  by_cases hi : t.count i = 0
  · rw [release_of_count_eq_zero hi]
  · rcases exists_held hi with ⟨h, hh, hhi⟩
    rw [count_of_held hh]
    rcases held_release hh hhi ms with ⟨hl, hn⟩ | ⟨h', _, hc, _, hh'⟩
    · have h0 := Held.leave_eq_none_iff.mp hl j
      rw [Function.update_of_ne hj] at h0
      rw [count_of_none hn, h0]
    · by_cases hlive : t.now < t.endAfterRelease h i ms
      · rw [if_pos hlive] at hh'
        rw [count_of_held hh', hc, Function.update_of_ne hj]
      · rw [if_neg hlive] at hh'
        rw [count_of_none hh']
        rcases write_of_endAfterRelease_le hh hhi hc hlive with ⟨_, hw, _, _⟩
        by_contra h0
        exact hj (h.sole hw j i (Ne.symm h0) hhi)

end Table

end ReadWriteLock

end BlogSample
