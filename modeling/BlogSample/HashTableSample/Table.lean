import BlogSample.DotNet
import BlogSample.Theory.Chain
import BlogSample.Theory.Transition
import Mathlib.Data.Int.DivMod
import Mathlib.Logic.Function.Basic

/-!
# The Hash Table

`HashTable` with its buckets, which are linked lists of the employees
themselves. An employee is an object that `Add` and `Modify` get from outside,
and its `Next` is where a bucket goes on. A reference is the number of the
employee in the order in which they were created.

The loops of `EmployeeLinkedList` follow `Next`. A loop that has visited more
employees than there are is in a circle, and never ends. So the number of
employees is fuel enough for a loop, and one that runs out has no result at
all, which is a different thing from a call that throws.

`Delete` and `Modify` share their walk. They differ in what they do at the
employee that they find, and at the header.

## Main definitions

* `Employee`, `Heap`: Objects and where they are.
* `EmployeeLinkedList`: The methods of a bucket.
* `HashTable`: The array of buckets.
* `add`, `getEmployee`, `delete`, `modify`: The methods of the table.
* `Op`, `call`: Calls on new employees.

## Theorems

* `addLast_spec`, `find_spec`, `walk_spec`: The loops on a chain of employees.
-/

namespace BlogSample

namespace HashTableSample

open DotNet Transition

/-- A reference to an employee. -/
abbrev Ref : Type := Nat

/-- An `Employee`. The name is `null` or a text. -/
structure Employee where
  id : Int
  name : Option String
  next : Option Ref

/-- The employees that have been created, by their numbers, and how many there
    are. -/
structure Heap where
  employee : Ref → Employee
  count : Nat

namespace Heap

/-- Before any employee is created. -/
def empty : Heap where
  employee := fun _ => { id := 0, name := none, next := none }
  count := 0

/-- `r.Id`. -/
def id (h : Heap) (r : Ref) : Int :=
  (h.employee r).id

/-- `r.Name`. -/
def name (h : Heap) (r : Ref) : Option String :=
  (h.employee r).name

/-- `r.Next`. -/
def next (h : Heap) (r : Ref) : Option Ref :=
  (h.employee r).next

/-- `r.Next = n`. -/
def setNext (h : Heap) (r : Ref) (n : Option Ref) : Heap :=
  { h with employee := Function.update h.employee r { h.employee r with next := n } }

/-- `new Employee() { Id = id, Name = name }`. -/
def create (h : Heap) (id : Int) (name : Option String) : Heap where
  employee := Function.update h.employee h.count { id := id, name := name, next := none }
  count := h.count + 1

/-- No loop can go on for longer. -/
def fuel (h : Heap) : Nat :=
  h.count + 1

theorem employee_setNext_self (h : Heap) (r : Ref) (n : Option Ref) :
    (h.setNext r n).employee r = { h.employee r with next := n } :=
  Function.update_self _ _ _

theorem employee_setNext_of_ne (h : Heap) {r x : Ref} (hx : x ≠ r) (n : Option Ref) :
    (h.setNext r n).employee x = h.employee x :=
  Function.update_of_ne hx _ _

theorem next_setNext_self (h : Heap) (r : Ref) (n : Option Ref) : (h.setNext r n).next r = n :=
  congrArg Employee.next (h.employee_setNext_self r n)

theorem next_setNext_of_ne (h : Heap) {r x : Ref} (hx : x ≠ r) (n : Option Ref) :
    (h.setNext r n).next x = h.next x :=
  congrArg Employee.next (h.employee_setNext_of_ne hx n)

@[simp]
theorem id_setNext (h : Heap) (r x : Ref) (n : Option Ref) : (h.setNext r n).id x = h.id x := by
  by_cases hx : x = r
  · rw [hx]
    exact (congrArg Employee.id (h.employee_setNext_self r n)).trans rfl
  · exact congrArg Employee.id (h.employee_setNext_of_ne hx n)

@[simp]
theorem name_setNext (h : Heap) (r x : Ref) (n : Option Ref) :
    (h.setNext r n).name x = h.name x := by
  by_cases hx : x = r
  · rw [hx]
    exact (congrArg Employee.name (h.employee_setNext_self r n)).trans rfl
  · exact congrArg Employee.name (h.employee_setNext_of_ne hx n)

@[simp]
theorem count_setNext (h : Heap) (r : Ref) (n : Option Ref) : (h.setNext r n).count = h.count :=
  rfl

/-- A new employee is none of the old ones. -/
theorem employee_create_of_lt (h : Heap) (id : Int) (name : Option String) {r : Ref}
    (hr : r < h.count) : (h.create id name).employee r = h.employee r :=
  Function.update_of_ne (Nat.ne_of_lt hr) _ _

/-- The new employee. -/
theorem employee_create_self (h : Heap) (id : Int) (name : Option String) :
    (h.create id name).employee h.count = { id := id, name := name, next := none } :=
  Function.update_self _ _ _

/-- Employees keep their ids and names, and there are as many of them. -/
structure Keeps (h h' : Heap) : Prop where
  id (r : Ref) : h'.id r = h.id r
  name (r : Ref) : h'.name r = h.name r
  count : h'.count = h.count

theorem keeps_refl (h : Heap) : h.Keeps h :=
  ⟨fun _ => rfl, fun _ => rfl, rfl⟩

theorem keeps_setNext (h : Heap) (r : Ref) (n : Option Ref) : h.Keeps (h.setNext r n) :=
  ⟨fun x => h.id_setNext r x n, fun x => h.name_setNext r x n, rfl⟩

end Heap

/-- A bucket. -/
structure EmployeeLinkedList where
  header : Option Ref
  deriving DecidableEq

/-- The loop of `Add`. -/
def addLast : Nat → Heap → Ref → Ref → Option Heap
  | 0, _, _, _ => none
  | fuel + 1, heap, cur, e =>
      match heap.next cur with
      | some n => addLast fuel heap n e
      | none => some (heap.setNext cur (some e))

/-- The loop of `Get`. -/
def find : Nat → Heap → Option Ref → Int → Option (Option Ref)
  | 0, _, _, _ => none
  | _ + 1, _, none, _ => some none
  | fuel + 1, heap, some cur, id =>
      if heap.id cur = id then some (some cur)
      else
        match heap.next cur with
        | none => some none
        | some n => find fuel heap (some n) id

/-- The loop of `Delete` and of `Modify`, which do different things when
    `cur.Next`, the second reference here, has the id. The test of
    `cur.Next` for `null` inside the loop never succeeds. -/
def walk (found : Ref → Ref → Heap) : Nat → Heap → Ref → Int → Option Heap
  | 0, _, _, _ => none
  | fuel + 1, heap, cur, id =>
      match heap.next cur with
      -- The id is not there, and nothing is done.
      | none => some heap
      | some n => if heap.id n = id then some (found cur n) else walk found fuel heap n id

namespace EmployeeLinkedList

/-- `Add(e)`. -/
def add (l : EmployeeLinkedList) (heap : Heap) (e : Ref) : Option (Heap × EmployeeLinkedList) :=
  match l.header with
  | none => some (heap, { header := some e })
  | some header => (addLast heap.fuel heap header e).map fun heap => (heap, l)

/-- `Get(id)`. -/
def get (l : EmployeeLinkedList) (heap : Heap) (id : Int) : Option (Option Ref) :=
  find heap.fuel heap l.header id

/-- `Delete(id)`. Without a header, the loop follows `null`. -/
def delete (l : EmployeeLinkedList) (heap : Heap) (id : Int) :
    Option (Except Exn (Heap × EmployeeLinkedList)) :=
  match l.header with
  | none => some (throw .nullReference)
  | some header =>
      if heap.id header = id then some (pure (heap, { header := heap.next header }))
      else
        (walk (fun cur n => heap.setNext cur (heap.next n)) heap.fuel heap header id).map
          fun heap => pure (heap, l)

/-- `Modify(e)`. Without a header, the loop follows `null`. -/
def modify (l : EmployeeLinkedList) (heap : Heap) (e : Ref) :
    Option (Except Exn (Heap × EmployeeLinkedList)) :=
  match l.header with
  | none => some (throw .nullReference)
  | some header =>
      if heap.id header = heap.id e then
        -- The new employee becomes the header, in front of the old one's rest.
        some (pure (heap.setNext e (heap.next header), { header := some e }))
      else
        (walk (fun cur n => (heap.setNext e (heap.next n)).setNext cur (some e)) heap.fuel heap
          header (heap.id e)).map fun heap => pure (heap, l)

end EmployeeLinkedList

/-- The fields of the table. -/
structure HashTable where
  map : List EmployeeLinkedList
  size : Int

namespace HashTable

/-- The constructor. -/
def new (size : Int) : Except Exn HashTable :=
  if size < 0 then throw .overflow
  else pure { map := List.replicate size.toNat { header := none }, size := size }

/-- `HashFunc(id)`. The remainder has the sign of the id. -/
def hashFunc (t : HashTable) (id : Int) : Except Exn Int :=
  if t.size = 0 then throw .divideByZero else pure (id.tmod t.size)

/-- `_map[HashFunc(id)]`, with its index. -/
def bucket (t : HashTable) (id : Int) : Except Exn (Nat × EmployeeLinkedList) := do
  let idx ← t.hashFunc id
  if idx < 0 then throw .indexOutOfRange
  else
    match t.map[idx.toNat]? with
    | none => throw .indexOutOfRange
    | some l => pure (idx.toNat, l)

end HashTable

/-- The employees and the table. -/
structure State where
  heap : Heap
  table : HashTable

namespace State

/-- A new table, before any employee is created. -/
def new (size : Int) : Except Exn State := do
  let table ← HashTable.new size
  pure { heap := Heap.empty, table := table }

/-- Go to the bucket of an id, and call a method of it. -/
def onBucket (s : State) (id : Int)
    (method : EmployeeLinkedList → Option (Except Exn (Heap × EmployeeLinkedList))) :
    Option (Except Exn State) :=
  match s.table.bucket id with
  | .error e => some (throw e)
  | .ok (idx, l) => (method l).map fun result => result.map fun (heap, l) =>
      { heap := heap, table := { s.table with map := s.table.map.set idx l } }

/-- `Add(e)`. -/
def add (s : State) (e : Ref) : Option (Except Exn State) :=
  s.onBucket (s.heap.id e) fun l => (l.add s.heap e).map pure

/-- `GetEmployee(id)`. -/
def getEmployee (s : State) (id : Int) : Option (Except Exn (Option Ref)) :=
  match s.table.bucket id with
  | .error e => some (throw e)
  | .ok (_, l) => (l.get s.heap id).map pure

/-- `Delete(id)`. -/
def delete (s : State) (id : Int) : Option (Except Exn State) :=
  s.onBucket id fun l => l.delete s.heap id

/-- `Modify(e)`. -/
def modify (s : State) (e : Ref) : Option (Except Exn State) :=
  s.onBucket (s.heap.id e) fun l => l.modify s.heap e

/-- `new Employee() { Id = id, Name = name }`. -/
def create (s : State) (id : Int) (name : Option String) : State :=
  { s with heap := s.heap.create id name }

end State

/-- The calls that may change a table. `Add` and `Modify` are called with a new
    employee. -/
inductive Op
  | add (id : Int) (name : Option String)
  | delete (id : Int)
  | modify (id : Int) (name : Option String)
  deriving DecidableEq

/-- The id of a call. -/
def Op.id : Op → Int
  | .add id _ => id
  | .delete id => id
  | .modify id _ => id

/-- The state in which a method is called: the new employee has been created. -/
def Op.before (s : State) : Op → State
  | .add id name => s.create id name
  | .delete _ => s
  | .modify id name => s.create id name

/-- The method of a call. -/
def Op.run (s : State) : Op → Option (Except Exn State)
  | .add id name => (s.create id name).add s.heap.count
  | .delete id => s.delete id
  | .modify id name => (s.create id name).modify s.heap.count

/-- A call, and the state after it. A call that throws does so before it
    writes anything. -/
def call (s : State) (op : Op) : Option (State × Except Exn Unit) :=
  (op.run s).map fun
    | .ok t => (t, .ok ())
    | .error e => (op.before s, .error e)

/-- The state after a call that returns. -/
def returns (s : State) (op : Op) : Option State :=
  match call s op with
  | some (t, .ok ()) => some t
  | _ => none

/-- The state after a call that returns or throws. -/
def after (s : State) (op : Op) : Option State :=
  (call s op).map Prod.fst

section Loops

variable {heap : Heap} {e : Ref} {id : Int}

/-- `Add` goes to the end of the chain. -/
theorem addLast_spec (rest : List Ref) : ∀ {fuel : Nat} {cur : Ref}, rest.length < fuel →
    Chain heap.next (some cur) (cur :: rest) → (cur :: rest).Nodup → e ∉ cur :: rest →
    heap.next e = none → ∃ heap', addLast fuel heap cur e = some heap' ∧
      Chain heap'.next (some cur) (cur :: (rest ++ [e])) ∧ heap.Keeps heap' ∧
      ∀ r, r ∉ cur :: rest → heap'.next r = heap.next r := by
  induction rest with
  | nil =>
      intro fuel cur hfuel hchain _ he hnext
      rcases fuel with _ | fuel
      · cases hfuel
      -- The last node is found, and the new one is linked to it.
      · have hend : heap.next cur = none := hchain.2
        have hne : e ≠ cur := fun h => he (h ▸ List.mem_cons_self)
        refine ⟨heap.setNext cur (some e), ?_, ⟨rfl, ?_, ?_⟩, heap.keeps_setNext cur _, ?_⟩
        · rw [addLast, hend]
        · exact heap.next_setNext_self cur _
        · exact (heap.next_setNext_of_ne hne _).trans hnext
        · exact fun r hr => heap.next_setNext_of_ne (List.ne_of_not_mem_cons hr) _
  | cons n rest ih =>
      intro fuel cur hfuel hchain hnodup he hnext
      rcases fuel with _ | fuel
      · cases hfuel
      · have hn : heap.next cur = some n := hchain.2.1
        rw [List.nodup_cons] at hnodup
        rcases ih (Nat.lt_of_succ_lt_succ hfuel) (hn ▸ hchain.2) hnodup.2
          (fun h => he (List.mem_cons_of_mem cur h)) hnext with
          ⟨heap', hloop, hchain', hkeeps, hframe⟩
        refine ⟨heap', ?_, ⟨rfl, ?_⟩, hkeeps, ?_⟩
        · rw [addLast, hn]
          exact hloop
        · rw [hframe cur hnodup.1, hn]
          exact hchain'
        · exact fun r hr => hframe r (fun h => hr (List.mem_cons_of_mem cur h))

/-- `Get` finds the first employee of the chain with the id. -/
theorem find_spec (l : List Ref) : ∀ {fuel : Nat} {p : Option Ref}, l.length < fuel →
    Chain heap.next p l →
    find fuel heap p id = some (l.filter (fun r => heap.id r = id)).head? := by
  induction l with
  | nil =>
      intro fuel p hfuel hchain
      rcases fuel with _ | fuel
      · cases hfuel
      · rw [show p = none from hchain]
        rfl
  | cons a l ih =>
      intro fuel p hfuel hchain
      rcases fuel with _ | fuel
      · cases hfuel
      · rw [hchain.1, find]
        have hfuel := Nat.lt_of_succ_lt_succ hfuel
        by_cases ha : heap.id a = id
        · rw [if_pos ha, List.filter_cons_of_pos (by simpa using ha)]
          rfl
        -- The loop goes on along the chain, or ends with it.
        · rw [if_neg ha, List.filter_cons_of_neg (by simpa using ha)]
          cases l with
          | nil =>
              rw [show heap.next a = none from hchain.2]
              rfl
          | cons b l =>
              have hb : heap.next a = some b := hchain.2.1
              rw [hb]
              exact ih hfuel (hb ▸ hchain.2)

/-- What `Delete` and `Modify` do at the employee that they find: the chain
    goes on with `ys` instead of `n`. -/
def Splices (heap : Heap) (ys : List Ref) (found : Ref → Ref → Heap) : Prop :=
  ∀ cur n rest, Chain heap.next (some cur) (cur :: n :: rest) → (cur :: n :: rest).Nodup →
    (∀ y ∈ ys, y ∉ cur :: n :: rest) →
    Chain (found cur n).next (some cur) (cur :: (ys ++ rest)) ∧ heap.Keeps (found cur n) ∧
      ∀ r, r ≠ cur → r ∉ ys → (found cur n).next r = heap.next r

/-- `Delete` takes the employee out. -/
theorem splices_delete : Splices heap [] (fun cur n => heap.setNext cur (heap.next n)) := by
  intro cur n rest hchain hnodup _
  have hn : heap.next cur = some n := hchain.2.1
  have hrest : Chain heap.next (heap.next n) rest := hchain.2.2
  rw [List.nodup_cons] at hnodup
  refine ⟨⟨rfl, ?_⟩, heap.keeps_setNext cur _, fun r hr _ => heap.next_setNext_of_ne hr _⟩
  rw [heap.next_setNext_self]
  -- The rest does not come by `cur` again.
  refine hrest.congr (fun r hr => heap.next_setNext_of_ne ?_ _)
  intro h
  exact hnodup.1 (h ▸ List.mem_cons_of_mem n hr)

/-- `Modify` puts the new employee in its place. -/
theorem splices_modify :
    Splices heap [e] (fun cur n => (heap.setNext e (heap.next n)).setNext cur (some e)) := by
  intro cur n rest hchain hnodup hnew
  have hrest : Chain heap.next (heap.next n) rest := hchain.2.2
  have he := hnew e (List.mem_singleton_self e)
  have hne : e ≠ cur := fun h => he (h ▸ List.mem_cons_self)
  rw [List.nodup_cons] at hnodup
  have hframe (r : Ref) (hr : r ≠ cur) (hre : r ≠ e) :
      ((heap.setNext e (heap.next n)).setNext cur (some e)).next r = heap.next r := by
    rw [Heap.next_setNext_of_ne _ hr, Heap.next_setNext_of_ne _ hre]
  refine ⟨⟨rfl, ?_, ?_⟩, ⟨fun r => by simp, fun r => by simp, rfl⟩, fun r hr hre => ?_⟩
  · exact Heap.next_setNext_self _ _ _
  · change Chain _ (Heap.next _ e) rest
    rw [Heap.next_setNext_of_ne _ hne, Heap.next_setNext_self]
    refine hrest.congr (fun r hr => hframe r (fun h => ?_) (fun h => ?_))
    · exact hnodup.1 (h ▸ List.mem_cons_of_mem n hr)
    · exact he (h ▸ List.mem_cons_of_mem cur (List.mem_cons_of_mem n hr))
  · exact hframe r hr (fun h => hre (h ▸ List.mem_singleton_self e))

/-- The walk replaces the first employee with the id, after the one it starts
    from. -/
theorem walk_spec {ys : List Ref} {found : Ref → Ref → Heap} (hfound : Splices heap ys found)
    (rest : List Ref) : ∀ {fuel : Nat} {cur : Ref}, rest.length < fuel →
    Chain heap.next (some cur) (cur :: rest) → (cur :: rest).Nodup →
    (∀ y ∈ ys, y ∉ cur :: rest) → ∃ heap', walk found fuel heap cur id = some heap' ∧
      Chain heap'.next (some cur)
        (cur :: substitute (fun r => heap.id r = id) ys rest) ∧ heap.Keeps heap' ∧
      (∀ r, r ∉ cur :: rest → r ∉ ys → heap'.next r = heap.next r) ∧
      ((∀ r ∈ rest, heap.id r ≠ id) → heap' = heap) := by
  induction rest with
  | nil =>
      intro fuel cur hfuel hchain _ _
      rcases fuel with _ | fuel
      · cases hfuel
      · have hend : heap.next cur = none := hchain.2
        refine ⟨heap, ?_, ⟨rfl, hend⟩, heap.keeps_refl, fun _ _ _ => rfl, fun _ => rfl⟩
        rw [walk, hend]
  | cons n rest ih =>
      intro fuel cur hfuel hchain hnodup hnew
      rcases fuel with _ | fuel
      · cases hfuel
      · have hn : heap.next cur = some n := hchain.2.1
        -- The node with the id is the next one, and the links are changed here.
        by_cases hid : heap.id n = id
        · rcases hfound cur n rest hchain hnodup hnew with ⟨hchain', hkeeps, hframe⟩
          refine ⟨found cur n, ?_, ?_, hkeeps, ?_, ?_⟩
          · rw [walk, hn]
            exact if_pos hid
          · rw [substitute, if_pos (by simpa using hid)]
            exact hchain'
          · exact fun r hr hys => hframe r (List.ne_of_not_mem_cons hr) hys
          · exact fun hnone => absurd hid (hnone n List.mem_cons_self)
        · have hnodup' := List.nodup_cons.mp hnodup
          -- It is further on, and the link to the next node stays.
          rcases ih (Nat.lt_of_succ_lt_succ hfuel) (hn ▸ hchain.2) hnodup'.2
            (fun y hy h => hnew y hy (List.mem_cons_of_mem cur h)) with
            ⟨heap', hloop, hchain', hkeeps, hframe, hsame⟩
          refine ⟨heap', ?_, ⟨rfl, ?_⟩, hkeeps, ?_, ?_⟩
          · rw [walk, hn]
            exact (if_neg hid).trans hloop
          · rw [substitute, if_neg (by simpa using hid),
              hframe cur hnodup'.1 (fun h => hnew cur h List.mem_cons_self), hn]
            exact hchain'
          · exact fun r hr => hframe r (fun h => hr (List.mem_cons_of_mem cur h))
          · exact fun hnone => hsame (fun r hr => hnone r (List.mem_cons_of_mem n hr))

end Loops

end HashTableSample

end BlogSample
