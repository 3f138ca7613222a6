import BlogSample.ReadWriteLock.Base
import BlogSample.Theory.Redis

/-!
# The Scripts of the Locks

The four Lua scripts of `ReadLock` and `WriteLock`, each a function from the
server to its reply and the server it leaves, and the methods that run them.
The server is a parameter: any type with the commands of Redis. A reply of
`none` is Lua's `nil`, which a caller sees as a null result.

The scripts take `KEYS` and `ARGV` as they are passed, so that what a method
passes is part of what is modelled. The script of `ReadLock.TryInnerUnLock`
looks for the remaining times of the other readers under names of its own
making, `Prefix:field:rwlock_timeout:i`.

## Main definitions

* `readLockScript`, `readUnLockScript`: `ReadLock`.
* `writeLockScript`, `writeUnLockScript`: `WriteLock`.
* `maxRemainTime`: The loop of the read release over fields and counters.
* `Objects.tryInnerLock`, `Objects.tryInnerUnLock`: The methods.
* `count`: The number in an object's field.
* `LockInRange`, `UnLockInRange`: The calls whose numbers the server takes.
-/

namespace BlogSample

namespace ReadWriteLock

open Redis Server

variable {σ : Type} [Server σ]

/-- `ReadLock.lockScript`. -/
def readLockScript (keys1 keys2 : String) (argv1 : Int) (argv2 argv3 : String) (s : σ) :
    Option Int × σ :=
  let mode := hget s keys1 "mode"
  if mode = none then
    let s := hset s keys1 "mode" (.text "read")
    let s := hset s keys1 argv2 (.int 1)
    let s := set s (keys2 ++ ":1") (.int 1)
    let s := pexpire s (keys2 ++ ":1") argv1
    let s := pexpire s keys1 argv1
    (none, s)
  else if mode = some (.text "read") ∨
      (mode = some (.text "write") ∧ hexists s keys1 argv3 = 1) then
    let (ind, s) := hincrby s keys1 argv2 1
    let key := keys2 ++ ":" ++ toString ind
    let s := set s key (.int 1)
    let s := pexpire s key argv1
    let remainTime := pttl s keys1
    let s := pexpire s keys1 (max remainTime argv1)
    (none, s)
  else
    (some (pttl s keys1), s)

/-- The greatest remaining time the loops of `ReadLock.unLockScript` find:
    over the fields of the hash, and for a field that holds a number over the
    indices from that number down to 1. -/
def maxRemainTime (keys1 keys3 : String) (s : σ) : Int :=
  (hkeys s keys1).foldl (fun m key =>
    match (hget s keys1 key).bind Value.tonumber with
    | some counter =>
        (List.range counter.toNat).reverse.foldl (fun m (i : Nat) =>
          max (pttl s (keys3 ++ ":" ++ key ++ ":rwlock_timeout:" ++ toString (i + 1))) m) m
    | none => m) (-3)

/-- `ReadLock.unLockScript` from its last test on: delete a hash that has no
    more than its mode. -/
def readUnLockEnd (keys1 : String) (s : σ) : Option Int × σ :=
  if hlen s keys1 ≤ 1 then (some 1, del s keys1) else (some 0, s)

/-- `ReadLock.unLockScript`. -/
def readUnLockScript (keys1 keys2 keys3 argv1 : String) (s : σ) : Option Int × σ :=
  let mode := hget s keys1 "mode"
  if mode = none then (some 1, s)
  else if hexists s keys1 argv1 = 0 then (none, s)
  else
    let (counter, s) := hincrby s keys1 argv1 (-1)
    let s := if counter = 0 then hdel s keys1 argv1 else s
    let s := del s (keys2 ++ ":" ++ toString (counter + 1))
    if 1 < hlen s keys1 then
      if 0 < maxRemainTime keys1 keys3 s then
        (some 0, pexpire s keys1 (maxRemainTime keys1 keys3 s))
      else if mode = some (.text "write") then (some 0, s)
      else readUnLockEnd keys1 s
    else readUnLockEnd keys1 s

/-- `WriteLock.lockScript`. -/
def writeLockScript (keys1 : String) (argv1 : Int) (argv2 : String) (s : σ) :
    Option Int × σ :=
  let mode := hget s keys1 "mode"
  if mode = none then
    let s := hset s keys1 "mode" (.text "write")
    let s := hset s keys1 argv2 (.int 1)
    let s := pexpire s keys1 argv1
    (none, s)
  else if mode = some (.text "write") ∧ hexists s keys1 argv2 = 1 then
    let (_, s) := hincrby s keys1 argv2 1
    let currentExpire := pttl s keys1
    let s := pexpire s keys1 (currentExpire + argv1)
    (none, s)
  else
    (some (pttl s keys1), s)

/-- `WriteLock.unLockscript`. -/
def writeUnLockScript (keys1 : String) (argv1 : Int) (argv2 : String) (s : σ) :
    Option Int × σ :=
  let mode := hget s keys1 "mode"
  if mode = none then (some 1, s)
  else if mode = some (.text "write") then
    if hexists s keys1 argv2 = 0 then (none, s)
    else
      let (counter, s) := hincrby s keys1 argv2 (-1)
      if 0 < counter then (some 0, pexpire s keys1 argv1)
      else
        let s := hdel s keys1 argv2
        if hlen s keys1 = 1 then (some 1, del s keys1)
        -- has unlocked read-locks
        else (some 1, hset s keys1 "mode" (.text "read"))
  else (none, s)

namespace Objects

variable {ι : Type} (O : Objects ι)

/-- `TryInnerLock` of either class. A null reply means that the lock is
    acquired, any other is the remaining time of its holder. -/
def tryInnerLock (i : ι) (timeout : Int) (s : σ) : Option Int × σ :=
  match O.kind i with
  | .read =>
      readLockScript O.name (O.getReadWriteTimeOutPrefix i) (toMillisecond timeout)
        (O.getLockName i) (O.getLockName i ++ ":write") s
  | .write =>
      writeLockScript O.name (toMillisecond timeout) (O.getLockName i ++ ":write") s

/-- `TryInnerUnLock` of either class, before its reply is turned into a
    `bool`. A writer passes the timeout of its latest `Acquire`. -/
def tryInnerUnLock (i : ι) (internalLockLeaseTime : Int) (s : σ) : Option Int × σ :=
  match O.kind i with
  | .read =>
      readUnLockScript O.name (O.getReadWriteTimeOutPrefix i) lockPrefix (O.getLockName i) s
  | .write =>
      writeUnLockScript O.name internalLockLeaseTime (O.getLockName i ++ ":write") s

end Objects

variable {ι : Type} (O : Objects ι)

/-- The number in an object's field of the lock's hash, 0 if it has none. -/
def count (s : σ) (i : ι) : Int :=
  ((hget s O.name (O.field i)).bind Value.tonumber).getD 0

/-- Lua writes a number of less than fifteen digits in full, as the name of a
    lease key needs it. -/
def maxCount : Int := 100000000000000

/-- The time to live that an acquire asks for a hash that is there. -/
def hashTime (i : ι) (ms : Int) (s : σ) : Int :=
  match O.kind i with
  | .read => max (pttl s O.name) ms
  | .write => max (pttl s O.name) 0 + ms

/-- The server takes the numbers of an acquire. Otherwise the script stops with
    an error when it has written some of them. -/
def LockInRange (i : ι) (timeout : Int) (s : σ) : Prop :=
  count O s i + 1 < maxCount ∧ (keyspace s).Accepts (toMillisecond timeout) ∧
    (keyspace s).Accepts (hashTime O i (toMillisecond timeout) s)

/-- The server takes the numbers of a release. -/
def UnLockInRange (i : ι) (internalLockLeaseTime : Int) (s : σ) : Prop :=
  count O s i < maxCount ∧
    (O.kind i = .write → 1 < count O s i → (keyspace s).Accepts internalLockLeaseTime)

instance (i : ι) (timeout : Int) (s : σ) : Decidable (LockInRange O i timeout s) :=
  inferInstanceAs (Decidable (_ ∧ _ ∧ _))

instance (i : ι) (timeout : Int) (s : σ) : Decidable (UnLockInRange O i timeout s) :=
  inferInstanceAs (Decidable (_ ∧ (_ → _ → _)))

end ReadWriteLock

end BlogSample
