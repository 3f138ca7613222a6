import Mathlib.Data.Int.Notation
import Mathlib.Data.List.Basic
import Mathlib.Data.List.TakeWhile

/-!
# Read and Write Lock Objects

The part of the two lock classes that is in their common base class: the names
a lock object makes from its `Guid` and its thread, and the units of time.

A lock of one name is used through any number of objects, some `ReadLock`s
and some `WriteLock`s. `Objects` is such a family. A `Guid` is written with
hexadecimal digits and dashes only, and it is fresh: no two objects have the
same, and the name of the lock is not one of the keys made from it.

The scripts build the names of keys and fields from pieces with a colon
between them. What the proofs need is that two names are never confused, and
that rests on a `Guid` having no colon and a number having none either.

## Main definitions

* `Kind`, `Objects`: The lock objects of one lock.
* `getLockName`, `getReadWriteTimeOutPrefix`, `toMillisecond`: The base class.
* `field`: The hash field an object counts its acquires in.
* `leaseKey`: The key of one acquire of a reader.

## Theorems

* `field_injective`, `field_ne_mode`, `getLockName_ne_append_write`: The
  fields of a lock are told apart.
* `leaseKey_injective`, `name_ne_leaseKey`: So are its keys.
* `rwlockTimeout_ne_leaseKey`: The keys the release of a reader looks up are
  none that an acquire makes.
-/

namespace BlogSample

namespace ReadWriteLock

/-- The class of a lock object. -/
inductive Kind where
  | read
  | write
  deriving DecidableEq

/-- `Prefix`. -/
def lockPrefix : String := "\x7banyLock\x7d"

/-- The lock objects of one name. -/
structure Objects (ι : Type) where
  name : String
  kind : ι → Kind
  hashKey : ι → String
  threadID : ι → Nat
  hashKey_injective : Function.Injective hashKey
  hashKey_no_colon : ∀ i, ':' ∉ (hashKey i).toList
  name_fresh : ∀ i x, name ≠ lockPrefix ++ ":" ++ hashKey i ++ ":" ++ x

/-- `ToMillisecond`: a product of `long`s, which wraps around. -/
def toMillisecond (timeout : Int) : Int := (timeout * 1000).bmod Int64.size

namespace Objects

variable {ι : Type} (O : Objects ι)

/-- `GetLockName`. -/
def getLockName (i : ι) : String := O.hashKey i ++ ":" ++ toString (O.threadID i)

/-- `GetReadWriteTimeOutPrefix`. -/
def getReadWriteTimeOutPrefix (i : ι) : String :=
  lockPrefix ++ ":" ++ O.hashKey i ++ ":" ++ toString (O.threadID i)

/-- The field of the lock's hash that holds how often an object has acquired. -/
def field (i : ι) : String :=
  match O.kind i with
  | .read => O.getLockName i
  | .write => O.getLockName i ++ ":write"

/-- The key an object's `n`-th nested acquire is timed by. -/
def leaseKey (i : ι) (n : Nat) : String :=
  O.getReadWriteTimeOutPrefix i ++ ":" ++ toString (n : Int)

end Objects

/-- A number is written without a given character that is no digit. -/
theorem notMem_toString {c : Char} (n : Nat) (h : c.isDigit = false) :
    c ∉ (toString n).toList := by
  intro hc
  rw [Nat.toString_eq_repr, Nat.toList_repr] at hc
  have := Nat.isDigit_of_mem_toDigits (by decide) (by decide) hc
  rw [h] at this
  exact Bool.false_ne_true this

/-- Different numbers are written differently. -/
theorem toString_injective {n m : Nat} (h : toString n = toString m) : n = m := by
  rw [← Nat.ofDigitChars_ten_toDigits (n := n), ← Nat.toList_repr, ← Nat.toString_eq_repr, h,
    Nat.toString_eq_repr, Nat.toList_repr, Nat.ofDigitChars_ten_toDigits]

theorem toString_ne_empty (n : Nat) : (toString n).toList ≠ [] := by
  rw [Nat.toString_eq_repr, Nat.toList_repr]
  exact Nat.toDigits_ne_nil

/-- Two strings that agree and are split at their first colon are split
    alike. -/
theorem append_colon_inj {a b x y : String} (ha : ':' ∉ a.toList) (hb : ':' ∉ b.toList)
    (h : a ++ ":" ++ x = b ++ ":" ++ y) : a = b ∧ x = y := by
  have hsplit : ∀ l m : List Char, ':' ∉ l → (l ++ ':' :: m).takeWhile (· ≠ ':') = l := by
    intro l m hl
    rw [List.takeWhile_append_of_pos]
    · simp
    · intro c hc
      simpa using fun heq : c = ':' => hl (heq ▸ hc)
  have hl : a.toList ++ ':' :: x.toList = b.toList ++ ':' :: y.toList := by
    have := congrArg String.toList h
    simpa [String.toList_append] using this
  have hab : a.toList = b.toList := by
    rw [← hsplit a.toList x.toList ha, hl, hsplit b.toList y.toList hb]
  rw [hab, List.append_cancel_left_eq, List.cons.injEq] at hl
  exact ⟨String.toList_inj.mp hab, String.toList_inj.mp hl.2⟩

namespace Objects

variable {ι : Type} {O : Objects ι} {i j : ι}

theorem field_of_read (hi : O.kind i = .read) : O.field i = O.getLockName i := by
  simp only [field, hi]

theorem field_of_write (hi : O.kind i = .write) :
    O.field i = O.getLockName i ++ ":write" := by
  simp only [field, hi]

theorem leaseKey_one (i : ι) : O.getReadWriteTimeOutPrefix i ++ ":1" = O.leaseKey i 1 := by
  have hone : (":1" : String) = ":" ++ toString ((1 : Nat) : Int) := by decide
  rw [leaseKey, hone, String.append_assoc]

theorem hashKey_eq_of_append {x y : String}
    (h : O.hashKey i ++ ":" ++ x = O.hashKey j ++ ":" ++ y) : i = j ∧ x = y := by
  rcases append_colon_inj (O.hashKey_no_colon i) (O.hashKey_no_colon j) h with ⟨hk, hx⟩
  exact ⟨O.hashKey_injective hk, hx⟩

/-- Every field but `mode` starts with the `Guid` of its object. -/
theorem field_eq_append (i : ι) : ∃ x, O.field i = O.hashKey i ++ ":" ++ x := by
  cases hk : O.kind i with
  | read => exact ⟨toString (O.threadID i), by rw [field_of_read hk, getLockName]⟩
  | write =>
      exact ⟨toString (O.threadID i) ++ ":write", by
        rw [field_of_write hk, getLockName, String.append_assoc]⟩

/-- Different objects count in different fields. -/
theorem field_injective : Function.Injective O.field := by
  intro i j h
  rcases O.field_eq_append i with ⟨x, hx⟩
  rcases O.field_eq_append j with ⟨y, hy⟩
  rw [hx, hy] at h
  exact (hashKey_eq_of_append h).1

/-- No object counts in the field `mode`. -/
theorem field_ne_mode (i : ι) : O.field i ≠ "mode" := by
  rcases O.field_eq_append i with ⟨x, hx⟩
  intro h
  have hmem : ':' ∈ (O.field i).toList := by
    rw [hx]
    simp [String.toList_append]
  rw [h] at hmem
  exact absurd hmem (by decide)

/-- A reader's lock name does not end in `:write`. -/
theorem getLockName_ne_append_write (i : ι) (x : String) :
    O.getLockName i ≠ x ++ ":write" := by
  intro h
  have hlast : 'e' ∈ (toString (O.threadID i)).toList := by
    have hl := congrArg (fun s : String => s.toList.getLast?) h
    simp only [getLockName, String.toList_append, List.getLast?_append_of_ne_nil _
      (toString_ne_empty (O.threadID i))] at hl
    rw [List.getLast?_append_of_ne_nil _ (by decide)] at hl
    exact List.mem_of_getLast? hl
  exact notMem_toString _ (by decide) hlast

/-- A reader has no second field under the lock name of a writer. -/
theorem getLockName_write_ne_field (hi : O.kind i = .read) (j : ι) :
    O.getLockName i ++ ":write" ≠ O.field j := by
  intro h
  rcases O.field_eq_append j with ⟨y, hy⟩
  have hij : i = j := by
    rw [hy, getLockName, String.append_assoc] at h
    exact (hashKey_eq_of_append h).1
  subst hij
  rw [field_of_read hi] at h
  exact getLockName_ne_append_write i _ h.symm

theorem leaseKey_eq_append (i : ι) (n : Nat) :
    O.leaseKey i n = lockPrefix ++ ":" ++ O.hashKey i ++ ":" ++
      (toString (O.threadID i) ++ ":" ++ toString n) := by
  simp only [leaseKey, getReadWriteTimeOutPrefix, String.append_assoc]
  rfl

/-- What follows the prefix of a key names its object. -/
theorem prefix_inj {x y : String}
    (h : lockPrefix ++ ":" ++ O.hashKey i ++ ":" ++ x =
      lockPrefix ++ ":" ++ O.hashKey j ++ ":" ++ y) : i = j ∧ x = y := by
  have h' : lockPrefix ++ ":" ++ (O.hashKey i ++ ":" ++ x) =
      lockPrefix ++ ":" ++ (O.hashKey j ++ ":" ++ y) := by
    simpa only [String.append_assoc] using h
  exact hashKey_eq_of_append ((String.append_right_inj _).mp h')

/-- Different acquires are timed by different keys. -/
theorem leaseKey_injective {n m : Nat} (h : O.leaseKey i n = O.leaseKey j m) :
    i = j ∧ n = m := by
  rw [leaseKey_eq_append, leaseKey_eq_append] at h
  rcases prefix_inj h with ⟨hij, hx⟩
  have hnm := (append_colon_inj (notMem_toString _ (by decide))
    (notMem_toString _ (by decide)) hx).2
  exact ⟨hij, toString_injective hnm⟩

theorem name_ne_leaseKey (i : ι) (n : Nat) : O.name ≠ O.leaseKey i n := by
  rw [leaseKey_eq_append]
  exact O.name_fresh i _

/-- The key that the release of a reader reads a remaining time from. -/
theorem rwlockTimeout_eq_append (i : ι) (x : String) :
    lockPrefix ++ ":" ++ O.getLockName i ++ ":rwlock_timeout:" ++ x =
      lockPrefix ++ ":" ++ O.hashKey i ++ ":" ++
        (toString (O.threadID i) ++ ":" ++ ("rwlock_timeout:" ++ x)) := by
  have hc : (":rwlock_timeout:" : String) = ":" ++ "rwlock_timeout:" := by decide
  rw [hc]
  simp only [getLockName, String.append_assoc]

theorem rwlockTimeout_ne_name (i : ι) (x : String) :
    lockPrefix ++ ":" ++ O.getLockName i ++ ":rwlock_timeout:" ++ x ≠ O.name := by
  rw [rwlockTimeout_eq_append]
  exact (O.name_fresh i _).symm

/-- It is no key that an acquire makes: those end in a number. -/
theorem rwlockTimeout_ne_leaseKey (i j : ι) (x : String) (n : Nat) :
    lockPrefix ++ ":" ++ O.getLockName i ++ ":rwlock_timeout:" ++ x ≠ O.leaseKey j n := by
  rw [rwlockTimeout_eq_append, leaseKey_eq_append]
  intro h
  have hx := (append_colon_inj (notMem_toString _ (by decide))
    (notMem_toString _ (by decide)) (prefix_inj h).2).2
  have hr : 'r' ∈ (toString n).toList := by
    rw [← hx]
    simp [String.toList_append]
  exact notMem_toString n (by decide) hr

end Objects

end ReadWriteLock

end BlogSample
