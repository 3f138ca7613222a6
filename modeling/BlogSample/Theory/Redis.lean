import Mathlib.Data.List.AList
import Mathlib.Logic.Function.Basic

/-!
# A Redis Server

The Redis commands that lock scripts are written in. Redis is a service, so a
server is any type with these commands, and what is known of them is what the
documentation says of each: `LawfulServer`. A law is about the keyspace that
the server stands for, a clock in milliseconds and keys that store strings and
hashes, each with an optional time of expiry. Redis runs a script as one atomic
step, so a script is a composition of commands.

A key is gone as soon as the clock reaches its time. Keys are taken out when
the clock moves, so a stored key is always one that a command can see.

A field holding the decimal form of a number is kept apart from other text by
its constructor, which is the distinction `tonumber` and `HINCRBY` draw. A
command that Redis rejects stops its script with an error. It is rejected when
its key or its field is of another type, or when a number is too large, and no
law says anything of it then.

`Keyspace` itself is a server that keeps the laws.

## Main definitions

* `Value`, `Fields`, `Content`, `Entry`, `Keyspace`: What is stored.
* `Keyspace.put`, `Keyspace.expiring`, `Keyspace.wait`: What commands and time
  do to it.
* `Fits`, `Keyspace.Accepts`: The numbers that a command takes.
* `Server`, `LawfulServer`: The commands and what is documented of them.

## Theorems

* `hexists_eq_zero_iff`: A field that is not there.
* `set_pexpire`: A string key stored with a time to live.
* `Fields.keys_length_le_one_iff`: When a field is the only one.
-/

namespace BlogSample

namespace Redis

/-- What a hash field or a string key holds. -/
inductive Value where
  | text (s : String)
  | int (n : Int)
  deriving DecidableEq, Repr

/-- Lua's `tonumber`, `none` being `nil`. -/
def Value.tonumber : Value → Option Int
  | .text _ => none
  | .int n => some n

/-- The fields of a hash. -/
abbrev Fields := AList (fun _ : String => Value)

/-- What is stored under a key. -/
inductive Content where
  | string (v : Value)
  | hash (fields : Fields)

/-- A key's content and when it expires, if ever. -/
structure Entry where
  content : Content
  expireAt : Option Int

/-- The clock and the keys. -/
structure Keyspace where
  time : Int
  keys : String → Option Entry

/-- A number that a script has exactly: Lua's are doubles, and commands take
    integers of 64 bits. -/
def Fits (n : Int) : Prop := -9007199254740992 ≤ n ∧ n ≤ 9007199254740992

instance (n : Int) : Decidable (Fits n) := inferInstanceAs (Decidable (_ ∧ _))

namespace Keyspace

/-- Nothing is stored. -/
def empty (time : Int) : Keyspace := ⟨time, fun _ => none⟩

/-- Replace what is stored under a key. -/
def put (s : Keyspace) (k : String) (e : Option Entry) : Keyspace :=
  { s with keys := Function.update s.keys k e }

/-- What is left of a content that is given `ms` milliseconds to live: a time
    that is not ahead deletes it. -/
def expiring (s : Keyspace) (c : Content) (ms : Int) : Option Entry :=
  if ms ≤ 0 then none else some ⟨c, some (s.time + ms)⟩

/-- The clock moves on, and the keys whose time has passed disappear. -/
def wait (s : Keyspace) (d : Nat) : Keyspace where
  time := s.time + d
  keys := fun k => (s.keys k).filter (fun e => e.expireAt.all (fun x => s.time + d < x))

/-- A time to live that `PEXPIRE` takes: neither it nor its end is too large. -/
def Accepts (s : Keyspace) (ms : Int) : Prop := Fits ms ∧ Fits (s.time + ms)

instance (s : Keyspace) (ms : Int) : Decidable (s.Accepts ms) :=
  inferInstanceAs (Decidable (_ ∧ _))

variable {s : Keyspace} {k k' : String}

@[simp] theorem time_put (x : Option Entry) : (s.put k x).time = s.time := rfl

@[simp] theorem keys_put_self (x : Option Entry) : (s.put k x).keys k = x := by
  simp only [put, Function.update_self]

theorem keys_put_of_ne (x : Option Entry) (h : k' ≠ k) :
    (s.put k x).keys k' = s.keys k' := by
  simp only [put, Function.update_of_ne h]

@[simp] theorem put_put (x y : Option Entry) : (s.put k x).put k y = s.put k y := by
  simp only [put, Function.update_idem]

/-- Writes to different keys can be taken in either order. -/
theorem put_comm (h : k ≠ k') (x y : Option Entry) :
    (s.put k x).put k' y = (s.put k' y).put k x := by
  simp only [put, Function.update_comm h]

@[simp] theorem expiring_put (x : Option Entry) (c : Content) (ms : Int) :
    (s.put k x).expiring c ms = s.expiring c ms := rfl

@[simp] theorem accepts_put (x : Option Entry) (ms : Int) :
    (s.put k x).Accepts ms ↔ s.Accepts ms := Iff.rfl

@[simp] theorem time_wait (d : Nat) : (s.wait d).time = s.time + d := rfl

end Keyspace

/-- A server: its commands, the passing of time, and the keyspace it stands
    for. -/
class Server (σ : Type) where
  keyspace : σ → Keyspace
  hget : σ → String → String → Option Value
  hexists : σ → String → String → Int
  hkeys : σ → String → List String
  hlen : σ → String → Nat
  pttl : σ → String → Int
  hset : σ → String → String → Value → σ
  hincrby : σ → String → String → Int → Int × σ
  hdel : σ → String → String → σ
  set : σ → String → Value → σ
  del : σ → String → σ
  pexpire : σ → String → Int → σ
  wait : σ → Nat → σ

open Server

/-- What is documented of the commands, as far as the locks rest on it. -/
class LawfulServer (σ : Type) [Server σ] : Prop where
  /-- `HGET` on a missing key. -/
  hget_of_none {s : σ} {k : String} (field : String) :
    (keyspace s).keys k = none → hget s k field = none
  /-- `HGET` on a hash. -/
  hget_of_hash {s : σ} {k : String} {f : Fields} {e : Option Int} (field : String) :
    (keyspace s).keys k = some ⟨.hash f, e⟩ → hget s k field = f.lookup field
  /-- `HEXISTS` finds what `HGET` finds. -/
  hexists_eq (s : σ) (k field : String) :
    hexists s k field = if (hget s k field).isSome then 1 else 0
  /-- `HKEYS` gives the fields in any order. -/
  hkeys_of_hash {s : σ} {k : String} {f : Fields} {e : Option Int} :
    (keyspace s).keys k = some ⟨.hash f, e⟩ → (hkeys s k).Perm f.keys
  /-- `HLEN` gives their number. -/
  hlen_of_hash {s : σ} {k : String} {f : Fields} {e : Option Int} :
    (keyspace s).keys k = some ⟨.hash f, e⟩ → hlen s k = f.keys.length
  /-- `PTTL` is `-2` for a missing key. -/
  pttl_of_none {s : σ} {k : String} : (keyspace s).keys k = none → pttl s k = -2
  /-- `PTTL` of a key that expires. -/
  pttl_of_expireAt {s : σ} {k : String} {c : Content} {t : Int} :
    (keyspace s).keys k = some ⟨c, some t⟩ → pttl s k = t - (keyspace s).time
  /-- `HSET` on a missing key makes a hash that does not expire. -/
  hset_of_none {s : σ} {k : String} (field : String) (v : Value) :
    (keyspace s).keys k = none → keyspace (hset s k field v) =
      (keyspace s).put k (some ⟨.hash (AList.insert field v ∅), none⟩)
  /-- `HSET` on a hash, which keeps its time of expiry. -/
  hset_of_hash {s : σ} {k : String} {f : Fields} {e : Option Int} (field : String) (v : Value) :
    (keyspace s).keys k = some ⟨.hash f, e⟩ → keyspace (hset s k field v) =
      (keyspace s).put k (some ⟨.hash (f.insert field v), e⟩)
  /-- `HINCRBY` on a hash whose field holds a number, a missing one counting
      as 0: the new value and the server. -/
  hincrby_of_hash {s : σ} {k : String} {f : Fields} {e : Option Int} {field : String} {n d : Int} :
    (keyspace s).keys k = some ⟨.hash f, e⟩ → (f.lookup field).getD (.int 0) = .int n →
      Fits (n + d) → (hincrby s k field d).1 = n + d ∧ keyspace (hincrby s k field d).2 =
        (keyspace s).put k (some ⟨.hash (f.insert field (.int (n + d))), e⟩)
  /-- `HDEL` on a hash that keeps a field. -/
  hdel_of_hash {s : σ} {k : String} {f : Fields} {e : Option Int} {field : String} :
    (keyspace s).keys k = some ⟨.hash f, e⟩ → (f.erase field).keys ≠ [] →
      keyspace (hdel s k field) = (keyspace s).put k (some ⟨.hash (f.erase field), e⟩)
  /-- `SET`, which also discards the key's time of expiry. -/
  set_eq (s : σ) (k : String) (v : Value) :
    keyspace (set s k v) = (keyspace s).put k (some ⟨.string v, none⟩)
  /-- `DEL`. -/
  del_eq (s : σ) (k : String) : keyspace (del s k) = (keyspace s).put k none
  /-- `PEXPIRE` on a key that is there, for a time that it takes. -/
  pexpire_of_some {s : σ} {k : String} {c : Content} {e : Option Int} {ms : Int} :
    (keyspace s).keys k = some ⟨c, e⟩ → (keyspace s).Accepts ms →
      keyspace (pexpire s k ms) = (keyspace s).put k ((keyspace s).expiring c ms)
  /-- Time passes. -/
  wait_eq (s : σ) (d : Nat) : keyspace (wait s d) = (keyspace s).wait d

export LawfulServer (hget_of_none hget_of_hash hexists_eq hkeys_of_hash hlen_of_hash pttl_of_none
  pttl_of_expireAt hset_of_none hset_of_hash hincrby_of_hash hdel_of_hash set_eq del_eq
  pexpire_of_some wait_eq)

section Laws

variable {σ : Type} [Server σ] [LawfulServer σ] {s : σ} {k field : String}

theorem hexists_eq_zero_iff : hexists s k field = 0 ↔ hget s k field = none := by
  rw [hexists_eq]
  cases h : hget s k field <;> simp

/-- A string stored with a time to live. -/
theorem set_pexpire {v : Value} {ms : Int} (hms : (keyspace s).Accepts ms) :
    keyspace (pexpire (set s k v) k ms) =
      (keyspace s).put k ((keyspace s).expiring (.string v) ms) := by
  have hset := set_eq s k v
  have hkey : (keyspace (set s k v)).keys k = some ⟨.string v, none⟩ := by
    rw [hset, Keyspace.keys_put_self]
  rw [pexpire_of_some hkey (by rwa [hset, Keyspace.accepts_put]), hset, Keyspace.put_put,
    Keyspace.expiring_put]

end Laws

namespace Keyspace

/-- The hash stored under a key. -/
def hash (s : Keyspace) (k : String) : Option Fields :=
  match s.keys k with
  | some ⟨.hash f, _⟩ => some f
  | _ => none

/-- A keyspace as a server. A command that Redis would reject changes
    nothing. -/
instance : Server Keyspace where
  keyspace := fun s => s
  hget := fun s k field => (s.hash k).bind (fun f => f.lookup field)
  hexists := fun s k field =>
    if ((s.hash k).bind (fun f => f.lookup field)).isSome then 1 else 0
  hkeys := fun s k => (s.hash k).elim [] AList.keys
  hlen := fun s k => ((s.hash k).elim [] AList.keys).length
  pttl := fun s k =>
    match s.keys k with
    | none => -2
    | some ⟨_, none⟩ => -1
    | some ⟨_, some e⟩ => e - s.time
  hset := fun s k field v =>
    match s.keys k with
    | none => s.put k (some ⟨.hash (AList.insert field v ∅), none⟩)
    | some ⟨.hash f, e⟩ => s.put k (some ⟨.hash (f.insert field v), e⟩)
    | some ⟨.string _, _⟩ => s
  hincrby := fun s k field d =>
    match s.keys k with
    | none => (d, s.put k (some ⟨.hash (AList.insert field (.int d) ∅), none⟩))
    | some ⟨.hash f, e⟩ =>
        match (f.lookup field).getD (.int 0) with
        | .int n => (n + d, s.put k (some ⟨.hash (f.insert field (.int (n + d))), e⟩))
        | .text _ => (0, s)
    | some ⟨.string _, _⟩ => (0, s)
  hdel := fun s k field =>
    match s.keys k with
    | some ⟨.hash f, e⟩ =>
        if (f.erase field).keys = [] then s.put k none
        else s.put k (some ⟨.hash (f.erase field), e⟩)
    | _ => s
  set := fun s k v => s.put k (some ⟨.string v, none⟩)
  del := fun s k => s.put k none
  pexpire := fun s k ms =>
    match s.keys k with
    | none => s
    | some e => if s.Accepts ms then s.put k (s.expiring e.content ms) else s
  wait := wait

instance : LawfulServer Keyspace where
  hget_of_none := fun field h => by simp only [hget, hash, keyspace] at h ⊢; simp only [h]; rfl
  hget_of_hash := fun field h => by simp only [hget, hash, keyspace] at h ⊢; simp only [h]; rfl
  hexists_eq := fun _ _ _ => rfl
  hkeys_of_hash := fun h => by simp only [hkeys, hash, keyspace] at h ⊢; simp only [h]; rfl
  hlen_of_hash := fun h => by simp only [hlen, hash, keyspace] at h ⊢; simp only [h]; rfl
  pttl_of_none := fun h => by simp only [pttl, keyspace] at h ⊢; simp only [h]
  pttl_of_expireAt := fun h => by simp only [pttl, keyspace] at h ⊢; simp only [h]
  hset_of_none := fun field v h => by simp only [hset, keyspace] at h ⊢; simp only [h]
  hset_of_hash := fun field v h => by simp only [hset, keyspace] at h ⊢; simp only [h]
  hincrby_of_hash := fun h hn _ => by
    simp only [hincrby, keyspace] at h ⊢
    simp only [h, hn, and_self]
  hdel_of_hash := fun h hne => by simp only [hdel, keyspace] at h ⊢; simp only [h, if_neg hne]
  set_eq := fun _ _ _ => rfl
  del_eq := fun _ _ => rfl
  pexpire_of_some := fun h hms => by
    simp only [pexpire, keyspace] at h hms ⊢
    simp only [h, if_pos hms]
  wait_eq := fun _ _ => rfl

end Keyspace

namespace Fields

variable {f : Fields} {field : String}

/-- A field is the only one when there is at most one. -/
theorem keys_length_le_one_iff (h : field ∈ f) :
    f.keys.length ≤ 1 ↔ ∀ k ∈ f, k = field := by
  rw [AList.mem_keys] at h
  simp only [AList.mem_keys]
  constructor
  · intro hlen k hk
    cases hkeys : f.keys with
    | nil =>
        rw [hkeys] at h
        exact absurd h List.not_mem_nil
    | cons x xs =>
        rw [hkeys, List.length_cons] at hlen
        have hxs : xs = [] := List.eq_nil_of_length_eq_zero (by omega)
        rw [hkeys, hxs, List.mem_singleton] at h hk
        exact hk.trans h.symm
  · intro hall
    have hsub : f.keys ⊆ [field] := fun k hk => List.mem_singleton.mpr (hall k hk)
    exact (List.subperm_of_subset f.keys_nodup hsub).length_le

/-- A hash with a field has a key. -/
theorem keys_ne_nil (h : field ∈ f) : f.keys ≠ [] := by
  rw [AList.mem_keys] at h
  exact List.ne_nil_of_mem h

end Fields

end Redis

end BlogSample
