import BlogSample.ReadWriteLock.LeaseTable
import BlogSample.ReadWriteLock.Scripts

/-!
# The Scripts Refine the Lease Table

What a server stores for a lock is a lease table: `Represents` says how. The
hash is there exactly when the lock is held, its fields are the mode and the
holders' counts, its time of expiry is the table's, each lease is a string key,
and there are no other keys.

Each script does to the server what the table's operation does to the table,
whichever branch it takes. The loop of the read release never finds a
remaining time, since no acquire makes a key under the names it looks up. The
release of a reader therefore never sets the hash's time of expiry.

## Main definitions

* `FieldsRepresent`: The fields of the hash of a held lock.
* `HashRepresents`: The key of the lock.
* `Represents`: The keyspace of a lease table.

## Theorems

* `maxRemainTime_le`: The read release finds no remaining time.
* `tryInnerLock_refines`: Either acquire script.
* `tryInnerUnLock_refines`: Either release script.
* `wait_refines`: The passing of time.
-/

namespace BlogSample

namespace ReadWriteLock

open Redis Server

variable {ι : Type} {O : Objects ι}

/-- The text a mode is stored as. -/
def Kind.text : Kind → String
  | .read => "read"
  | .write => "write"

/-- The fields of the hash of a lock with this mode and these holders. -/
structure FieldsRepresent (O : Objects ι) (f : Fields) (mode : Kind) (count : ι → Nat) :
    Prop where
  mode : f.lookup "mode" = some (.text mode.text)
  field : ∀ i, f.lookup (O.field i) = if count i = 0 then none else some (.int (count i))
  other : ∀ k, k ≠ "mode" → (∀ i, k ≠ O.field i) → f.lookup k = none

/-- The key of a lock: absent, or a hash that expires when the lock ends. -/
inductive HashRepresents (O : Objects ι) : Option Entry → Option (Held O.kind) → Prop
  | absent : HashRepresents O none none
  | present (f : Fields) (h : Held O.kind) : FieldsRepresent O f h.mode h.count →
      HashRepresents O (some ⟨.hash f, some h.expireAt⟩) (some h)

/-- The key of a lease. -/
def leaseEntry (e : Int) : Entry := ⟨.string (.int 1), some e⟩

/-- A keyspace that stores a lease table and nothing else. -/
structure Represents (O : Objects ι) (s : Keyspace) (t : Table O.kind) : Prop where
  time : s.time = t.now
  held : HashRepresents O (s.keys O.name) t.held
  lease : ∀ i n, s.keys (O.leaseKey i n) = (t.lease i n).map leaseEntry
  other : ∀ k, k ≠ O.name → (∀ i n, k ≠ O.leaseKey i n) → s.keys k = none

namespace FieldsRepresent

variable {f : Fields} {mode : Kind} {count : ι → Nat} {i j : ι}

theorem mode_mem (h : FieldsRepresent O f mode count) : "mode" ∈ f :=
  AList.lookup_isSome.mp (by rw [h.mode]; rfl)

/-- An object has a field when it holds the lock. -/
theorem field_eq_none_iff (h : FieldsRepresent O f mode count) :
    f.lookup (O.field i) = none ↔ count i = 0 := by
  rw [h.field]
  by_cases hi : count i = 0 <;> simp [hi]

/-- Every field but the mode is a holder's. -/
theorem exists_of_mem (h : FieldsRepresent O f mode count) {k : String} (hk : k ∈ f)
    (hne : k ≠ "mode") : ∃ i, count i ≠ 0 ∧ k = O.field i := by
  by_contra hno
  refine AList.lookup_eq_none.mp (h.other k hne ?_) hk
  rintro i rfl
  exact hno ⟨i, fun h0 => AList.lookup_eq_none.mp (h.field_eq_none_iff.mpr h0) hk, rfl⟩

/-- The number in an object's field, a missing one counting as 0. -/
theorem getD_field (h : FieldsRepresent O f mode count) (i : ι) :
    (f.lookup (O.field i)).getD (.int 0) = .int (count i) := by
  rw [h.field]
  by_cases hi : count i = 0 <;> simp [hi]

/-- The hash has only its mode when nobody holds the lock. -/
theorem keys_length_le_one_iff (h : FieldsRepresent O f mode count) :
    f.keys.length ≤ 1 ↔ ∀ j, count j = 0 := by
  rw [Fields.keys_length_le_one_iff h.mode_mem]
  constructor
  · intro hall j
    rw [← h.field_eq_none_iff, AList.lookup_eq_none]
    intro hj
    exact O.field_ne_mode j (hall _ hj)
  · intro hzero k hk
    by_contra hmode
    rcases h.exists_of_mem hk hmode with ⟨j, hj, _⟩
    exact hj (hzero j)

/-- A reader has no field of a writer. -/
theorem lookup_write_eq_none (h : FieldsRepresent O f mode count) (hi : O.kind i = .read) :
    f.lookup (O.getLockName i ++ ":write") = none := by
  refine h.other _ ?_ (fun j => O.getLockName_write_ne_field hi j)
  intro heq
  have hmem : ':' ∈ ("mode" : String).toList := by
    rw [← heq, Objects.getLockName]
    simp [String.toList_append]
  exact absurd hmem (by decide)

variable [DecidableEq ι]

/-- The hash a first acquire creates. -/
theorem fresh (i : ι) (e : Int) :
    FieldsRepresent O ((AList.insert "mode" (.text (O.kind i).text) ∅).insert (O.field i) (.int 1))
      (Held.fresh O.kind i e).mode (Held.fresh O.kind i e).count := by
  refine ⟨?_, ?_, ?_⟩
  · rw [AList.lookup_insert_ne (O.field_ne_mode i).symm, AList.lookup_insert]
    rfl
  · intro j
    by_cases hj : j = i
    · subst hj
      rw [AList.lookup_insert]
      simp [Held.fresh]
    · rw [AList.lookup_insert_ne (fun h => hj (O.field_injective h)),
        AList.lookup_insert_ne (O.field_ne_mode j), AList.lookup_empty]
      simp [Held.fresh, Function.update_of_ne hj]
  · intro k hmode hk
    rw [AList.lookup_insert_ne (hk i), AList.lookup_insert_ne hmode, AList.lookup_empty]

/-- A count is written. -/
theorem insert (h : FieldsRepresent O f mode count) (i : ι) {n : Nat} (hn : n ≠ 0) :
    FieldsRepresent O (f.insert (O.field i) (.int n)) mode (Function.update count i n) := by
  refine ⟨?_, ?_, ?_⟩
  · rw [AList.lookup_insert_ne (O.field_ne_mode i).symm, h.mode]
  · intro j
    by_cases hj : j = i
    · subst hj
      rw [AList.lookup_insert, Function.update_self, if_neg hn]
    · rw [AList.lookup_insert_ne (fun hf => hj (O.field_injective hf)), h.field,
        Function.update_of_ne hj]
  · intro k hmode hk
    rw [AList.lookup_insert_ne (hk i), h.other k hmode hk]

/-- A count that has come down to 0 is deleted. -/
theorem erase (h : FieldsRepresent O f mode count) (i : ι) (v : Value) :
    FieldsRepresent O ((f.insert (O.field i) v).erase (O.field i)) mode
      (Function.update count i 0) := by
  refine ⟨?_, ?_, ?_⟩
  · rw [AList.lookup_erase_ne (O.field_ne_mode i).symm,
      AList.lookup_insert_ne (O.field_ne_mode i).symm, h.mode]
  · intro j
    by_cases hj : j = i
    · subst hj
      rw [AList.lookup_erase, Function.update_self, if_pos rfl]
    · have hf : O.field j ≠ O.field i := fun hf => hj (O.field_injective hf)
      rw [AList.lookup_erase_ne hf, AList.lookup_insert_ne hf, h.field,
        Function.update_of_ne hj]
  · intro k hmode hk
    rw [AList.lookup_erase_ne (hk i), AList.lookup_insert_ne (hk i), h.other k hmode hk]

end FieldsRepresent

namespace Represents

variable {s : Keyspace} {t : Table O.kind}

/-- The hash of a lock that is held. -/
theorem exists_hash (hr : Represents O s t) {h : Held O.kind} (hh : t.held = some h) :
    ∃ f, s.keys O.name = some ⟨.hash f, some h.expireAt⟩ ∧
      FieldsRepresent O f h.mode h.count := by
  have hrep := hr.held
  rw [hh] at hrep
  generalize s.keys O.name = x at hrep ⊢
  cases hrep with
  | present f h hf => exact ⟨f, rfl, hf⟩

/-- A free lock has no key. -/
theorem keys_name_eq_none (hr : Represents O s t) (hh : t.held = none) :
    s.keys O.name = none := by
  have hrep := hr.held
  rw [hh] at hrep
  generalize s.keys O.name = x at hrep ⊢
  cases hrep with
  | absent => rfl

/-- The hash is absent when the lock is free. -/
theorem isNone_eq (hr : Represents O s t) : (s.keys O.name).isNone = t.held.isNone := by
  cases hh : t.held with
  | none =>
      rw [hr.keys_name_eq_none hh]
      rfl
  | some h =>
      rcases hr.exists_hash hh with ⟨f, hkey, _⟩
      rw [hkey]
      rfl

/-- The hash is written. -/
theorem put_hash (hr : Represents O s t) {x : Option Entry} (h : Option (Held O.kind))
    (hx : HashRepresents O x (h.filter (fun h => t.now < h.expireAt))) :
    Represents O (s.put O.name x) (t.withHeld h) := by
  refine ⟨hr.time, ?_, ?_, ?_⟩
  · rw [Keyspace.keys_put_self]
    exact hx
  · intro i n
    rw [Keyspace.keys_put_of_ne _ (O.name_ne_leaseKey i n).symm]
    exact hr.lease i n
  · intro k hk hkey
    rw [Keyspace.keys_put_of_ne _ hk]
    exact hr.other k hk hkey

/-- A lease is written. -/
theorem put_lease [DecidableEq ι] (hr : Represents O s t) (i : ι) (n : Nat) (e : Option Int) :
    Represents O (s.put (O.leaseKey i n) ((e.filter (fun e => t.now < e)).map leaseEntry))
      (t.withLease i n e) := by
  refine ⟨hr.time, ?_, ?_, ?_⟩
  · rw [Keyspace.keys_put_of_ne _ (O.name_ne_leaseKey i n)]
    exact hr.held
  · intro j m
    by_cases hkey : O.leaseKey j m = O.leaseKey i n
    · rcases O.leaseKey_injective hkey with ⟨rfl, rfl⟩
      rw [Keyspace.keys_put_self]
      simp only [Table.withLease, Function.update_self]
    · rw [Keyspace.keys_put_of_ne _ hkey, hr.lease j m]
      by_cases hj : j = i
      · subst hj
        have hm : m ≠ n := fun hm => hkey (by rw [hm])
        simp only [Table.withLease, Function.update_self, Function.update_of_ne hm]
      · simp only [Table.withLease, Function.update_of_ne hj]
  · intro k hk hkey
    rw [Keyspace.keys_put_of_ne _ (hkey i n)]
    exact hr.other k hk hkey

/-- A hash that is given a time to live is the lock until then. -/
theorem hash_expiring (hr : Represents O s t) {f : Fields} {h : Held O.kind} {ms : Int}
    (hf : FieldsRepresent O f h.mode h.count) (he : h.expireAt = t.now + ms) :
    HashRepresents O (s.expiring (.hash f) ms)
      ((some h).filter (fun h => t.now < h.expireAt)) := by
  rw [Option.filter_some, Keyspace.expiring, hr.time, ← he]
  by_cases hms : ms ≤ 0
  · rw [if_pos hms, if_neg (by simp only [decide_eq_true_eq]; omega)]
    exact .absent
  · rw [if_neg hms, if_pos (by simp only [decide_eq_true_eq]; omega)]
    exact .present f h hf

/-- A string that is given a time to live is a lease until then. -/
theorem lease_expiring (hr : Represents O s t) (ms : Int) :
    s.expiring (.string (.int 1)) ms =
      ((some (t.now + ms)).filter (fun e => t.now < e)).map leaseEntry := by
  rw [Option.filter_some, Keyspace.expiring, hr.time]
  by_cases hms : ms ≤ 0
  · rw [if_pos hms, if_neg (by simp only [decide_eq_true_eq]; omega)]
    rfl
  · rw [if_neg hms, if_pos (by simp only [decide_eq_true_eq]; omega)]
    rfl

end Represents

/-- An empty keyspace stores a free lock. -/
theorem empty_represents (now : Int) :
    Represents O (Keyspace.empty now) (Table.empty now) :=
  ⟨rfl, .absent, fun _ _ => rfl, fun _ _ _ => rfl⟩

/-- Time passes for the keyspace as for the table. -/
theorem wait_refines {s : Keyspace} {t : Table O.kind} (hr : Represents O s t) (d : Nat) :
    Represents O (s.wait d) (t.wait d) := by
  refine ⟨by rw [Keyspace.time_wait, hr.time]; rfl, ?_, ?_, ?_⟩
  · cases hh : t.held with
    | none =>
        rw [Table.held_wait_of_none hh]
        simp only [Keyspace.wait, hr.keys_name_eq_none hh, Option.filter_none]
        exact .absent
    | some h =>
        rcases hr.exists_hash hh with ⟨f, hk, hf⟩
        rw [Table.held_wait hh]
        simp only [Keyspace.wait, hk, Option.filter_some, Option.all_some, decide_eq_true_eq,
          hr.time]
        -- The hash goes when its time is over.
        by_cases hd : t.now + d < h.expireAt
        · rw [if_pos hd, if_pos hd]
          exact .present f h hf
        · rw [if_neg hd, if_neg hd]
          exact .absent
  · intro i n
    simp only [Keyspace.wait, Table.wait, hr.lease i n, hr.time]
    cases t.lease i n with
    | none => rfl
    | some e =>
        simp only [Option.map_some, leaseEntry, Option.filter_some, Option.all_some]
        by_cases hd : t.now + d < e <;> simp [hd, leaseEntry]
  · intro k hk hkey
    simp only [Keyspace.wait, hr.other k hk hkey, Option.filter_none]

/-- A lock's key and a lease's are written over in turn. -/
theorem put_hash_lease_hash (s : Keyspace) (i : ι) (n : Nat) (x y z : Option Entry) :
    ((s.put O.name x).put (O.leaseKey i n) y).put O.name z =
      (s.put (O.leaseKey i n) y).put O.name z := by
  rw [Keyspace.put_comm (O.name_ne_leaseKey i n), Keyspace.put_put]

section Scripts

variable {σ : Type} [Server σ] [LawfulServer σ] {s : σ} {t : Table O.kind} {i : ι}
  {h : Held O.kind} {f : Fields}

/-- The mode of a lock that is held. -/
theorem Represents.hget_mode (hr : Represents O (keyspace s) t) (hh : t.held = some h) :
    hget s O.name "mode" = some (.text h.mode.text) := by
  rcases hr.exists_hash hh with ⟨f, hkey, hf⟩
  rw [hget_of_hash _ hkey, hf.mode]

/-- The field of an object. -/
theorem Represents.hget_field (hr : Represents O (keyspace s) t) (i : ι) :
    hget s O.name (O.field i) = if t.count i = 0 then none else some (.int (t.count i)) := by
  cases hh : t.held with
  | none => rw [hget_of_none _ (hr.keys_name_eq_none hh), if_pos (Table.count_of_none hh i)]
  | some h =>
      rcases hr.exists_hash hh with ⟨f, hkey, hf⟩
      rw [hget_of_hash _ hkey, hf.field, Table.count_of_held hh]

theorem Represents.count_eq (hr : Represents O (keyspace s) t) (i : ι) :
    count O s i = t.count i := by
  rw [count, hr.hget_field]
  by_cases hi : t.count i = 0 <;> simp [hi, Value.tonumber]

/-- An object has a field when it holds the lock. -/
theorem Represents.isSome_eq (hr : Represents O (keyspace s) t) (i : ι) :
    (hget s O.name (O.field i)).isSome = decide (t.count i ≠ 0) := by
  rw [hr.hget_field]
  by_cases hi : t.count i = 0 <;> simp [hi]

/-- The same as a reply. -/
theorem Represents.hexists_field (hr : Represents O (keyspace s) t) (i : ι) :
    hexists s O.name (O.field i) = if t.count i = 0 then 0 else 1 := by
  rw [hexists_eq, hr.hget_field]
  by_cases hi : t.count i = 0 <;> simp [hi]

/-- No reader finds the field that its script looks for. -/
theorem Represents.hexists_write (hr : Represents O (keyspace s) t) (hk : O.kind i = .read) :
    hexists s O.name (O.getLockName i ++ ":write") = 0 := by
  rw [hexists_eq_zero_iff]
  cases hh : t.held with
  | none => exact hget_of_none _ (hr.keys_name_eq_none hh)
  | some h =>
      rcases hr.exists_hash hh with ⟨f, hkey, hf⟩
      rw [hget_of_hash _ hkey, hf.lookup_write_eq_none hk]

/-- A free lock has no mode. -/
theorem Represents.hget_mode_eq_none (hr : Represents O (keyspace s) t) (hh : t.held = none) :
    hget s O.name "mode" = none :=
  hget_of_none _ (hr.keys_name_eq_none hh)

/-- The remaining time of a lock that is held. -/
theorem Represents.pttl_name (hr : Represents O (keyspace s) t) (hh : t.held = some h) :
    pttl s O.name = h.expireAt - t.now := by
  rcases hr.exists_hash hh with ⟨f, hkey, _⟩
  rw [pttl_of_expireAt hkey, hr.time]

/-! ### Replies -/

/-- A call that is not admitted gets the remaining time and writes nothing. -/
theorem tryInnerLock_refused (hr : Represents O (keyspace s) t) (hi : ¬ t.Admits i)
    (timeout : Int) :
    (O.tryInnerLock i timeout s).1 ≠ none ∧ (O.tryInnerLock i timeout s).2 = s := by
  cases hh : t.held with
  | none => exact absurd (fun h h' => by rw [hh] at h'; cases h') hi
  | some h =>
      have hno : ¬ h.Admits i := fun hadm => hi (fun h' hh' => by
        rw [hh, Option.some.injEq] at hh'
        exact hh' ▸ hadm)
      have hmode := hr.hget_mode hh
      cases hk : O.kind i with
      | read =>
          -- A reader is not admitted by a writer only, and has no field of one.
          have hw : h.mode = .write := by
            cases hm : h.mode with
            | read => exact absurd ⟨hk.trans hm.symm, fun hw => by rw [hk] at hw; cases hw⟩ hno
            | write => rfl
          rw [hw] at hmode
          simp only [Objects.tryInnerLock, hk, readLockScript, hmode, Kind.text, reduceCtorEq,
            if_false, hr.hexists_write hk]
          rw [if_neg (by decide)]
          exact ⟨Option.some_ne_none _, rfl⟩
      | write =>
          -- A writer is not admitted by readers, nor by a writer that is another one.
          have hclause : ¬ (some (Value.text h.mode.text) = some (Value.text "write") ∧
              hexists s O.name (O.getLockName i ++ ":write") = 1) := by
            rintro ⟨hw, hex⟩
            refine hno ⟨?_, fun _ h0 => ?_⟩
            · cases hm : h.mode with
              | read =>
                  rw [hm] at hw
                  exact absurd hw (by decide)
              | write => exact hk
            · rw [← Objects.field_of_write hk, hr.hexists_field, Table.count_of_held hh,
                if_pos h0] at hex
              exact absurd hex (by decide)
          simp only [Objects.tryInnerLock, hk, writeLockScript, hmode, reduceCtorEq, if_false,
            if_neg hclause]
          exact ⟨Option.some_ne_none _, trivial⟩

/-- The clause of either acquire script that a holder's hash meets. -/
theorem mode_of_admits (hr : Represents O (keyspace s) t) (hh : t.held = some h)
    (hi : h.Admits i) : hget s O.name "mode" = some (.text (O.kind i).text) := by
  rw [hr.hget_mode hh, hi.1]

/-- A call that is admitted gets a null reply. -/
theorem tryInnerLock_admitted (hr : Represents O (keyspace s) t) (hi : t.Admits i)
    (timeout : Int) : (O.tryInnerLock i timeout s).1 = none := by
  cases hh : t.held with
  | none =>
      have hmode := hr.hget_mode_eq_none hh
      cases hk : O.kind i <;>
        simp only [Objects.tryInnerLock, hk, readLockScript, writeLockScript, if_pos hmode]
  | some h =>
      have hmode := mode_of_admits hr hh (hi h hh)
      cases hk : O.kind i with
      | read =>
          rw [hk] at hmode
          simp only [Objects.tryInnerLock, hk, readLockScript, hmode, Kind.text, reduceCtorEq,
            if_false, true_or, if_true]
      | write =>
          rw [hk] at hmode
          have hexists : hexists s O.name (O.getLockName i ++ ":write") = 1 := by
            rw [← Objects.field_of_write hk, hr.hexists_field, Table.count_of_held hh,
              if_neg ((hi h hh).2 hk)]
          simp only [Objects.tryInnerLock, hk, writeLockScript, hmode, Kind.text, reduceCtorEq,
            if_false, hexists, and_self, if_true]

/-- The reply of an acquire script is null exactly when the table admits the
    object. -/
theorem tryInnerLock_eq_none_iff (hr : Represents O (keyspace s) t) (i : ι) (timeout : Int) :
    (O.tryInnerLock i timeout s).1 = none ↔ t.Admits i := by
  constructor
  · intro hnull
    by_contra hi
    exact (tryInnerLock_refused hr hi timeout).1 hnull
  · exact fun hi => tryInnerLock_admitted hr hi timeout

/-! ### Acquires -/

/-- A counter of the hash is changed. -/
theorem exists_hincrby {e : Option Int} {mode : Kind} {count : ι → Nat}
    (hkey : (keyspace s).keys O.name = some ⟨.hash f, e⟩) (hf : FieldsRepresent O f mode count)
    (i : ι) {d : Int} (hfit : Fits (count i + d)) :
    ∃ s₁, hincrby s O.name (O.field i) d = ((count i : Int) + d, s₁) ∧
      keyspace s₁ = (keyspace s).put O.name
        (some ⟨.hash (f.insert (O.field i) (.int (count i + d))), e⟩) := by
  rcases hincrby_of_hash hkey (hf.getD_field i) hfit with ⟨hn, hs⟩
  exact ⟨_, Prod.ext hn rfl, hs⟩

/-- A hash is created with its mode and one count. -/
theorem keyspace_fresh {k : String} (hnone : (keyspace s).keys k = none) (mode field : String) :
    keyspace (hset (hset s k "mode" (.text mode)) k field (.int 1)) = (keyspace s).put k
      (some ⟨.hash ((AList.insert "mode" (.text mode) ∅).insert field (.int 1)), none⟩) := by
  have hfirst := hset_of_none (s := s) "mode" (.text mode) hnone
  rw [hset_of_hash _ _ (by rw [hfirst, Keyspace.keys_put_self]), hfirst, Keyspace.put_put]

variable [DecidableEq ι]

/-- A reader that finds no hash creates it. -/
theorem readLock_fresh (hr : Represents O (keyspace s) t) (hk : O.kind i = .read)
    (hh : t.held = none) {timeout : Int}
    (hms : (keyspace s).Accepts (toMillisecond timeout)) :
    Represents O (keyspace (O.tryInnerLock i timeout s).2)
      (t.acquire i (toMillisecond timeout)) := by
  have hnone := hr.keys_name_eq_none hh
  have hmode := hr.hget_mode_eq_none hh
  have hne := O.name_ne_leaseKey i 1
  simp only [Objects.tryInnerLock, hk, readLockScript, if_pos hmode, O.leaseKey_one]
  -- The hash is written, then the lease, and both are given their time.
  have hwritten := keyspace_fresh hnone "read" (O.getLockName i)
  generalize hset (hset s O.name "mode" (.text "read")) O.name (O.getLockName i) (.int 1) = s₁
    at hwritten ⊢
  have hms₁ : (keyspace s₁).Accepts (toMillisecond timeout) := by
    rwa [hwritten, Keyspace.accepts_put]
  have hlease := set_pexpire (k := O.leaseKey i 1) (v := .int 1) hms₁
  generalize pexpire (Server.set s₁ (O.leaseKey i 1) (.int 1)) (O.leaseKey i 1)
    (toMillisecond timeout) = s₂ at hlease ⊢
  rw [hwritten] at hlease
  have hkey : (keyspace s₂).keys O.name = some ⟨.hash ((AList.insert "mode" (.text "read") ∅).insert
      (O.getLockName i) (.int 1)), none⟩ := by
    rw [hlease, Keyspace.keys_put_of_ne _ hne, Keyspace.keys_put_self]
  rw [pexpire_of_some hkey (by rwa [hlease, Keyspace.accepts_put, Keyspace.accepts_put]), hlease,
    put_hash_lease_hash, ← Objects.field_of_read hk]
  simp only [Keyspace.expiring_put, hr.lease_expiring, Table.acquire, hh, hk]
  have hfresh := FieldsRepresent.fresh (O := O) i (t.now + toMillisecond timeout)
  rw [hk] at hfresh
  exact (hr.put_lease i 1 _).put_hash _ (hr.hash_expiring hfresh rfl)

/-- A reader joins readers. -/
theorem readLock_again (hr : Represents O (keyspace s) t) (hk : O.kind i = .read)
    (hh : t.held = some h) (hi : h.Admits i) {timeout : Int} (hin : LockInRange O i timeout s) :
    Represents O (keyspace (O.tryInnerLock i timeout s).2)
      (t.acquire i (toMillisecond timeout)) := by
  rcases hr.exists_hash hh with ⟨f, hkey, hf⟩
  rcases hin with ⟨hcount, hms, htime⟩
  have hmode := mode_of_admits hr hh hi
  rw [hk] at hmode
  have hne := O.name_ne_leaseKey i (h.count i + 1)
  rw [hr.count_eq, Table.count_of_held hh, maxCount] at hcount
  rcases exists_hincrby hkey hf i (d := 1) (by unfold Fits; omega) with ⟨s₁, hincr, hs₁⟩
  have hkeyname : O.getReadWriteTimeOutPrefix i ++ ":" ++ toString ((h.count i : Int) + 1) =
      O.leaseKey i (h.count i + 1) := by
    rw [Objects.leaseKey]
    rfl
  simp only [Objects.tryInnerLock, hk, readLockScript, hmode, Kind.text, reduceCtorEq, if_false,
    true_or, if_true, ← Objects.field_of_read hk, hincr, hkeyname]
  -- The count is written, then the lease, and the hash gets its time.
  have hms₁ : (keyspace s₁).Accepts (toMillisecond timeout) := by
    rwa [hs₁, Keyspace.accepts_put]
  have hlease := set_pexpire (k := O.leaseKey i (h.count i + 1)) (v := .int 1) hms₁
  generalize pexpire (Server.set s₁ (O.leaseKey i (h.count i + 1)) (.int 1))
    (O.leaseKey i (h.count i + 1)) (toMillisecond timeout) = s₂ at hlease ⊢
  rw [hs₁] at hlease
  have hkey' : (keyspace s₂).keys O.name =
      some ⟨.hash (f.insert (O.field i) (.int ((h.count i : Int) + 1))), some h.expireAt⟩ := by
    rw [hlease, Keyspace.keys_put_of_ne _ hne, Keyspace.keys_put_self]
  have hnow : (keyspace s₂).time = t.now := by
    rw [hlease, Keyspace.time_put, Keyspace.time_put, hr.time]
  simp only [hashTime, hk, hr.pttl_name hh] at htime
  rw [pttl_of_expireAt hkey', hnow, pexpire_of_some hkey' (by
    rwa [hlease, Keyspace.accepts_put, Keyspace.accepts_put]), hlease, put_hash_lease_hash]
  simp only [Keyspace.expiring_put, hr.lease_expiring, Table.acquire, hh, dif_pos hi, hk]
  refine (hr.put_lease i (h.count i + 1) _).put_hash _ (hr.hash_expiring ?_ ?_)
  · exact hf.insert i (Nat.succ_ne_zero _)
  · simp only [Held.again]
    omega

/-- A writer that finds no hash creates it. -/
theorem writeLock_fresh (hr : Represents O (keyspace s) t) (hk : O.kind i = .write)
    (hh : t.held = none) {timeout : Int}
    (hms : (keyspace s).Accepts (toMillisecond timeout)) :
    Represents O (keyspace (O.tryInnerLock i timeout s).2)
      (t.acquire i (toMillisecond timeout)) := by
  have hnone := hr.keys_name_eq_none hh
  have hmode := hr.hget_mode_eq_none hh
  simp only [Objects.tryInnerLock, hk, writeLockScript, if_pos hmode,
    ← Objects.field_of_write hk]
  have hwritten := keyspace_fresh hnone "write" (O.field i)
  rw [pexpire_of_some (by rw [hwritten, Keyspace.keys_put_self])
    (by rwa [hwritten, Keyspace.accepts_put]), hwritten, Keyspace.put_put]
  simp only [Keyspace.expiring_put, Table.acquire, hh, hk]
  have hfresh := FieldsRepresent.fresh (O := O) i (t.now + toMillisecond timeout)
  rw [hk] at hfresh
  exact hr.put_hash _ (hr.hash_expiring hfresh rfl)

/-- A writer that holds the lock acquires it once more. -/
theorem writeLock_again (hr : Represents O (keyspace s) t) (hk : O.kind i = .write)
    (hh : t.held = some h) (hi : h.Admits i) {timeout : Int} (hin : LockInRange O i timeout s) :
    Represents O (keyspace (O.tryInnerLock i timeout s).2)
      (t.acquire i (toMillisecond timeout)) := by
  rcases hr.exists_hash hh with ⟨f, hkey, hf⟩
  rcases hin with ⟨hcount, _, htime⟩
  have hmode := mode_of_admits hr hh hi
  rw [hk] at hmode
  -- The writer is the owner, so the second branch of the script is taken.
  have hexists : hexists s O.name (O.field i) = 1 := by
    rw [hr.hexists_field, Table.count_of_held hh, if_neg (hi.2 hk)]
  rw [hr.count_eq, Table.count_of_held hh, maxCount] at hcount
  rcases exists_hincrby hkey hf i (d := 1) (by unfold Fits; omega) with ⟨s₁, hincr, hs₁⟩
  simp only [Objects.tryInnerLock, hk, writeLockScript, hmode, Kind.text, reduceCtorEq, if_false,
    ← Objects.field_of_write hk, hexists, and_self, if_true, hincr]
  have hkey' : (keyspace s₁).keys O.name =
      some ⟨.hash (f.insert (O.field i) (.int ((h.count i : Int) + 1))), some h.expireAt⟩ := by
    rw [hs₁, Keyspace.keys_put_self]
  have hnow : (keyspace s₁).time = t.now := by
    rw [hs₁, Keyspace.time_put, hr.time]
  -- The new time is what is left and the timeout on top of it.
  have hlive := t.held_live h hh
  simp only [hashTime, hk, hr.pttl_name hh] at htime
  rw [max_eq_left (by omega)] at htime
  rw [pttl_of_expireAt hkey', hnow, pexpire_of_some hkey' (by
    rwa [hs₁, Keyspace.accepts_put]), hs₁, Keyspace.put_put]
  simp only [Keyspace.expiring_put, Table.acquire, hh, dif_pos hi, hk]
  refine hr.put_hash _ (hr.hash_expiring ?_ ?_)
  · exact hf.insert i (Nat.succ_ne_zero _)
  · simp only [Held.again]
    omega

/-- An acquire script whose numbers are in range is the acquire of the table. -/
theorem tryInnerLock_refines (hr : Represents O (keyspace s) t) (i : ι) {timeout : Int}
    (hin : LockInRange O i timeout s) :
    Represents O (keyspace (O.tryInnerLock i timeout s).2)
      (t.acquire i (toMillisecond timeout)) := by
  by_cases hi : t.Admits i
  · cases hh : t.held with
    | none =>
        cases hk : O.kind i with
        | read => exact readLock_fresh hr hk hh hin.2.1
        | write => exact writeLock_fresh hr hk hh hin.2.1
    | some h =>
        cases hk : O.kind i with
        | read => exact readLock_again hr hk hh (hi h hh) hin
        | write => exact writeLock_again hr hk hh (hi h hh) hin
  -- A refused call does not write anything.
  · rw [Table.acquire_of_not_admits hi, (tryInnerLock_refused hr hi timeout).2]
    exact hr

/-! ### Releases -/

omit [DecidableEq ι] in
/-- What the read release looks up is not there. -/
theorem maxRemainTime_le {e : Option Int} {count : ι → Nat}
    (hkey : (keyspace s).keys O.name = some ⟨.hash f, e⟩)
    (hf : FieldsRepresent O f .read count) (hread : ∀ j, count j ≠ 0 → O.kind j = .read)
    (hnone : ∀ j x, (keyspace s).keys
      (lockPrefix ++ ":" ++ O.getLockName j ++ ":rwlock_timeout:" ++ x) = none) :
    maxRemainTime O.name lockPrefix s ≤ 0 := by
  rw [maxRemainTime]
  refine List.foldlRecOn (motive := fun m => m ≤ 0) _ _ (by decide) ?_
  intro m hm key hmem
  rw [(hkeys_of_hash hkey).mem_iff] at hmem
  rw [hget_of_hash _ hkey]
  by_cases hmode : key = "mode"
  · rw [hmode, hf.mode]
    exact hm
  · rcases hf.exists_of_mem (AList.mem_keys.mpr hmem) hmode with ⟨j, hj, rfl⟩
    rw [hf.field, if_neg hj, Objects.field_of_read (hread j hj)]
    simp only [Option.bind_some, Value.tonumber]
    refine List.foldlRecOn (motive := fun m => m ≤ 0) _ _ hm ?_
    intro m hm n _
    rw [pttl_of_none (hnone j _)]
    omega

omit [DecidableEq ι] in
/-- A release by an object that does not hold the lock changes nothing. -/
theorem unLock_stranger (hr : Represents O (keyspace s) t) (hi : t.count i = 0) (ms : Int) :
    (O.tryInnerUnLock i ms s).2 = s := by
  cases hh : t.held with
  | none =>
      have hmode := hr.hget_mode_eq_none hh
      cases hk : O.kind i <;>
        simp only [Objects.tryInnerUnLock, hk, readUnLockScript, writeUnLockScript, if_pos hmode]
  | some h =>
      have hmode := hr.hget_mode hh
      have hexists : hexists s O.name (O.field i) = 0 := by
        rw [hr.hexists_field, if_pos hi]
      cases hk : O.kind i with
      | read =>
          rw [Objects.field_of_read hk] at hexists
          simp only [Objects.tryInnerUnLock, hk, readUnLockScript, hmode, reduceCtorEq, if_false,
            if_pos hexists]
      | write =>
          rw [Objects.field_of_write hk] at hexists
          simp only [Objects.tryInnerUnLock, hk, writeUnLockScript, hmode, reduceCtorEq,
            if_false, if_pos hexists]
          by_cases hw : some (Value.text h.mode.text) = some (Value.text "write")
          · rw [if_pos hw]
          · rw [if_neg hw]

/-- One has been taken off a counter, and a field that has come to 0 is
    deleted. -/
theorem decrement {e : Option Int} {mode : Kind} {count : ι → Nat} {s₀ : Keyspace}
    (hf : FieldsRepresent O f mode count) (hi : count i ≠ 0)
    (hs : keyspace s =
      s₀.put O.name (some ⟨.hash (f.insert (O.field i) (.int ((count i : Int) + -1))), e⟩)) :
    ∃ f', keyspace (if (count i : Int) + -1 = 0 then hdel s O.name (O.field i) else s) =
        s₀.put O.name (some ⟨.hash f', e⟩) ∧
      FieldsRepresent O f' mode (Function.update count i (count i - 1)) := by
  by_cases h1 : (count i : Int) + -1 = 0
  · have hf' := hf.erase i (.int ((count i : Int) + -1))
    have hz : count i - 1 = 0 := by omega
    refine ⟨_, ?_, hz ▸ hf'⟩
    rw [if_pos h1, hdel_of_hash (by rw [hs, Keyspace.keys_put_self])
      (Fields.keys_ne_nil hf'.mode_mem), hs, Keyspace.put_put]
  · have hn : ((count i : Int) + -1) = ((count i - 1 : Nat) : Int) := by omega
    refine ⟨_, by rw [if_neg h1, hs], ?_⟩
    rw [hn]
    exact hf.insert i (by omega)

/-- A reader that holds the lock releases one acquire. -/
theorem readUnLock_holder (hr : Represents O (keyspace s) t) (hk : O.kind i = .read)
    (hh : t.held = some h) (hi : h.count i ≠ 0) {ms : Int} (hin : UnLockInRange O i ms s) :
    Represents O (keyspace (O.tryInnerUnLock i ms s).2) (t.release i ms) := by
  rcases hr.exists_hash hh with ⟨f, hkey, hf⟩
  have hread : h.mode = .read := (h.kind_eq i hi) ▸ hk
  have hmode := hr.hget_mode hh
  rw [hread] at hmode
  have hexists : hexists s O.name (O.field i) ≠ 0 := by
    rw [hr.hexists_field, Table.count_of_held hh, if_neg hi]
    exact Int.one_ne_zero
  have hcount := hin.1
  rw [hr.count_eq, Table.count_of_held hh, maxCount] at hcount
  rcases exists_hincrby hkey hf i (d := -1) (by unfold Fits; omega) with ⟨s₁, hincr, hs₁⟩
  rcases decrement hf hi hs₁ with ⟨f', hs₂, hf'⟩
  have hlease : O.getReadWriteTimeOutPrefix i ++ ":" ++
      toString ((h.count i : Int) + -1 + 1) = O.leaseKey i (h.count i) := by
    rw [Objects.leaseKey, Int.add_assoc]
    rfl
  simp only [Objects.tryInnerUnLock, hk, readUnLockScript, hmode, Kind.text, reduceCtorEq,
    if_false, ← Objects.field_of_read hk, if_neg hexists, hincr, hlease]
  generalize (if (h.count i : Int) + -1 = 0 then hdel s₁ O.name (O.field i) else s₁) = s₂
    at hs₂ ⊢
  -- The server once the count and the lease are gone.
  have hs₃ := del_eq s₂ (O.leaseKey i (h.count i))
  generalize del s₂ (O.leaseKey i (h.count i)) = s₃ at hs₃ ⊢
  rw [hs₂] at hs₃
  have hkey' : (keyspace s₃).keys O.name = some ⟨.hash f', some h.expireAt⟩ := by
    rw [hs₃, Keyspace.keys_put_of_ne _ (O.name_ne_leaseKey i _), Keyspace.keys_put_self]
  -- The script reads the leases under other keys than those they have.
  have hmax : ¬ 0 < maxRemainTime O.name lockPrefix s₃ := by
    refine not_lt.mpr (maxRemainTime_le hkey' (hread ▸ hf') ?_ ?_)
    · intro j hj
      exact (h.kind_eq j (ne_zero_of_update_pred hj)).trans hread
    · intro j x
      rw [hs₃, Keyspace.keys_put_of_ne _ (O.rwlockTimeout_ne_leaseKey j i x _),
        Keyspace.keys_put_of_ne _ (O.rwlockTimeout_ne_name j x)]
      exact hr.other _ (O.rwlockTimeout_ne_name j x)
        (fun k n => O.rwlockTimeout_ne_leaseKey j k x n)
  have hnotwrite : ¬ some (Value.text "read") = some (Value.text "write") := by decide
  simp only [if_neg hmax, if_neg hnotwrite, ite_self]
  have hlen : f'.keys.length ≤ 1 ↔ h.leave i = none := by
    rw [hf'.keys_length_le_one_iff, Held.leave_eq_none_iff]
  rw [readUnLockEnd, hlen_of_hash hkey']
  simp only [Table.release, hh, if_neg hi, hk]
  cases hl : h.leave i with
  | none =>
      rw [if_pos (hlen.mpr hl), del_eq, hs₃, put_hash_lease_hash]
      exact (hr.put_lease i (h.count i) none).put_hash none .absent
  | some h' =>
      rcases Held.of_leave hl with ⟨hm, hc, he⟩
      have hmore : ¬ f'.keys.length ≤ 1 := by
        rw [hlen, hl]
        exact Option.some_ne_none h'
      rw [if_neg hmore, hs₃, Keyspace.put_comm (O.name_ne_leaseKey i _)]
      refine (hr.put_lease i (h.count i) none).put_hash (some h') ?_
      have hlive : (t.withLease i (h.count i) none).now < h'.expireAt := he ▸ t.held_live h hh
      rw [Option.filter_some, if_pos (decide_eq_true hlive), ← he]
      exact .present f' h' (by rw [hm, hc]; exact hf')

/-- A writer that holds the lock releases one acquire. -/
theorem writeUnLock_holder (hr : Represents O (keyspace s) t) (hk : O.kind i = .write)
    (hh : t.held = some h) (hi : h.count i ≠ 0) {ms : Int} (hin : UnLockInRange O i ms s) :
    Represents O (keyspace (O.tryInnerUnLock i ms s).2) (t.release i ms) := by
  rcases hr.exists_hash hh with ⟨f, hkey, hf⟩
  have hwrite : h.mode = .write := (h.kind_eq i hi) ▸ hk
  have hmode := hr.hget_mode hh
  rw [hwrite] at hmode
  -- The field of the caller is there, so the script goes on to `HINCRBY`.
  have hexists : hexists s O.name (O.field i) ≠ 0 := by
    rw [hr.hexists_field, Table.count_of_held hh, if_neg hi]
    exact Int.one_ne_zero
  rcases hin with ⟨hcount, htime⟩
  rw [hr.count_eq, Table.count_of_held hh] at hcount htime
  rw [maxCount] at hcount
  rcases exists_hincrby hkey hf i (d := -1) (by unfold Fits; omega) with ⟨s₁, hincr, hs₁⟩
  simp only [Objects.tryInnerUnLock, hk, writeUnLockScript, hmode, Kind.text, reduceCtorEq,
    if_false, if_true, ← Objects.field_of_write hk, if_neg hexists, hincr, Table.release, hh,
    if_neg hi]
  -- The hash with the count that is one less.
  have hkey' : (keyspace s₁).keys O.name =
      some ⟨.hash (f.insert (O.field i) (.int ((h.count i : Int) + -1))), some h.expireAt⟩ := by
    rw [hs₁, Keyspace.keys_put_self]
  by_cases h1 : h.count i ≤ 1
  -- The last acquire: the hash has only its mode left.
  · have hl : h.leave i = none := (Held.leave_eq_none_of_write hwrite hi).mpr h1
    have hf' := hf.erase i (.int ((h.count i : Int) + -1))
    have hz : (0 : Nat) = h.count i - 1 := by omega
    have hlen : ((f.insert (O.field i) (.int ((h.count i : Int) + -1))).erase
        (O.field i)).keys.length = 1 := by
      have hpos := List.length_pos_of_ne_nil (Fields.keys_ne_nil hf'.mode_mem)
      have hzero := Held.leave_eq_none_iff.mp hl
      rw [← hz] at hzero
      have hle := hf'.keys_length_le_one_iff.mpr hzero
      omega
    have hdel := hdel_of_hash hkey' (Fields.keys_ne_nil hf'.mode_mem)
    rw [hs₁, Keyspace.put_put] at hdel
    rw [if_neg (by omega), hlen_of_hash (by rw [hdel, Keyspace.keys_put_self]), if_pos hlen,
      del_eq, hdel, Keyspace.put_put, hl]
    exact hr.put_hash none .absent
  -- More are left, for the time that is passed.
  · have hn : ((h.count i : Int) + -1) = ((h.count i - 1 : Nat) : Int) := by omega
    have hf' := hf.insert i (n := h.count i - 1) (by omega)
    rcases Option.ne_none_iff_exists'.mp
      (fun hl => h1 ((Held.leave_eq_none_of_write hwrite hi).mp hl)) with ⟨h', hl⟩
    rcases Held.of_leave hl with ⟨hm, hc, _⟩
    have hms : (keyspace s₁).Accepts ms := by
      rw [hs₁, Keyspace.accepts_put]
      exact htime hk (by omega)
    rw [if_pos (by omega), pexpire_of_some hkey' hms, hs₁, Keyspace.put_put, hl, hn]
    simp only [Keyspace.expiring_put, Option.map_some]
    refine hr.put_hash _ (hr.hash_expiring ?_ rfl)
    simp only [Held.endAt, hm, hc]
    exact hf'

/-- A release script whose numbers are in range is the release of the table. -/
theorem tryInnerUnLock_refines (hr : Represents O (keyspace s) t) (i : ι) {ms : Int}
    (hin : UnLockInRange O i ms s) :
    Represents O (keyspace (O.tryInnerUnLock i ms s).2) (t.release i ms) := by
  by_cases hi : t.count i = 0
  · rw [Table.release_of_count_eq_zero hi, unLock_stranger hr hi]
    exact hr
  · rcases Table.exists_held hi with ⟨h, hh, hhi⟩
    cases hk : O.kind i with
    | read => exact readUnLock_holder hr hk hh hhi hin
    | write => exact writeUnLock_holder hr hk hh hhi hin

end Scripts

end ReadWriteLock

end BlogSample
