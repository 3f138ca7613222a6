import BlogSample.HashTableSample.Buckets

/-!
# First Added, First Found

What the table is for: a queue of employees for every id. `Add` appends one,
`Delete` takes the first one out, and `Modify` puts another one in its place.
`GetEmployee` returns the first one, and a queue is what its bucket has of the
id, in the order of the bucket.

## Main definitions

* `Entry`: What an employee is from outside.
* `Fifo`: A queue for every id.
* `fifo`: The queues after some calls.
* `Stands`: The buckets have what the queues have.

## Theorems

* `Stands.step`: One call.
* `stands_of_exec`: A run in which no call throws.
* `getEmployee_fifo`: What `GetEmployee` returns after such a run.
-/

namespace BlogSample

namespace HashTableSample

open DotNet Transition

/-- What an employee is from outside: which one it is, its id and its name. -/
abbrev Entry : Type := Ref × Int × Option String

/-- An employee of the heap from outside. -/
def Heap.entry (h : Heap) (r : Ref) : Entry :=
  (r, h.id r, h.name r)

/-- Is an employee created for the call? -/
def Op.creates : Op → Bool
  | .delete _ => false
  | _ => true

/-- The name of the employee that is created for a call. -/
def Op.name : Op → Option String
  | .add _ name => name
  | .delete _ => none
  | .modify _ name => name

/-- A queue of employees for every id, and how many employees there have been. -/
structure Fifo where
  queue : Int → List Entry
  created : Nat

namespace Fifo

/-- Before any call. -/
def empty : Fifo where
  queue := fun _ => []
  created := 0

/-- A call. -/
def step (f : Fifo) : Op → Fifo
  | .add id name =>
      { queue := Function.update f.queue id (f.queue id ++ [(f.created, id, name)])
        created := f.created + 1 }
  | .delete id => { f with queue := Function.update f.queue id (f.queue id).tail }
  | .modify id name =>
      { queue := Function.update f.queue id
          (match f.queue id with
          -- The new employee is not put anywhere.
          | [] => []
          | _ :: rest => (f.created, id, name) :: rest)
        created := f.created + 1 }

end Fifo

/-- The queues after some calls. -/
def fifo (ops : List Op) : Fifo :=
  ops.foldl Fifo.step Fifo.empty

/-- What a bucket has of an id, in its order. -/
def having (h : Heap) (id : Int) (l : List Ref) : List Entry :=
  (l.filter (fun r => h.id r = id)).map h.entry

/-- The buckets have what the queues have. -/
structure Stands (size : Int) (s : State) (b : Nat → List Ref) (f : Fifo) : Prop where
  represents : Represents size s b
  created : f.created = s.heap.count
  queue (id : Int) : 0 ≤ id.tmod size → f.queue id = having s.heap id (b (index size id))
  none (id : Int) : id.tmod size < 0 → f.queue id = []

section

variable {size : Int} {s t : State} {b : Nat → List Ref} {f : Fifo}

/-- Only the ids and names of the employees of a bucket matter. -/
theorem having_congr {h h' : Heap} {id : Int} {l : List Ref}
    (hsame : ∀ r ∈ l, h'.entry r = h.entry r) : having h' id l = having h id l := by
  have hid (r : Ref) (hr : r ∈ l) : h'.id r = h.id r := congrArg (·.2.1) (hsame r hr)
  unfold having
  rw [List.filter_congr (fun r hr => by rw [hid r hr])]
  exact List.map_congr_left (fun r hr => hsame r (List.mem_of_mem_filter hr))

/-- The employee that is created for a call, if one is. -/
theorem entry_before (s : State) (op : Op) (hcreates : op.creates = true) :
    (op.before s).heap.id s.heap.count = op.id ∧
      (op.before s).heap.name s.heap.count = op.name := by
  cases op with
  | add id name =>
      exact ⟨id_create s id name,
        congrArg Employee.name (s.heap.employee_create_self id name)⟩
  | delete id => cases hcreates
  | modify id name =>
      exact ⟨id_create s id name,
        congrArg Employee.name (s.heap.employee_create_self id name)⟩

/-- A call leaves what its bucket has of other ids. -/
theorem having_effect_other {h : Heap} {e : Ref} {l : List Ref} {op : Op} {id : Int}
    (hnew : op.creates = true → h.id e = op.id) (hid : id ≠ op.id) :
    having h id (op.effect h e l) = having h id l := by
  have hother (r : Ref) (hr : h.id r = op.id) : decide (h.id r = id) = false :=
    decide_eq_false (fun h => hid (h.symm.trans hr))
  unfold having
  refine congrArg (List.map h.entry) ?_
  cases op with
  | add id' name =>
      have he := hother e (hnew rfl)
      unfold Op.effect
      rw [List.filter_append, List.filter_singleton, he]
      exact List.append_nil _
  | delete id' =>
      exact filter_substitute_other (fun r hr => absurd hr List.not_mem_nil)
        (fun r _ hr => hother r (of_decide_eq_true hr))
  | modify id' name =>
      refine filter_substitute_other (fun r hr => ?_)
        (fun r _ hr => hother r (of_decide_eq_true hr))
      rw [List.mem_singleton.mp hr]
      exact hother e (hnew rfl)

/-- What a call does to what its bucket has of its own id. -/
theorem having_effect_self {h : Heap} {e : Ref} {l : List Ref} {op : Op}
    (hnew : op.creates = true → h.id e = op.id ∧ h.name e = op.name) {f : Fifo}
    (hcreated : f.created = e) (hqueue : f.queue op.id = having h op.id l) :
    (f.step op).queue op.id = having h op.id (op.effect h e l) := by
  cases op with
  | add id name =>
      have hentry : h.entry e = (f.created, id, name) := by
        unfold Heap.entry
        rw [(hnew rfl).1, (hnew rfl).2, hcreated]
        rfl
      have he : decide (h.id e = id) = true := decide_eq_true (hnew rfl).1
      have hqueue : f.queue id = having h id l := hqueue
      change Function.update f.queue id _ id = having h id (l ++ [e])
      unfold having at hqueue ⊢
      rw [Function.update_self, hqueue, List.filter_append, List.filter_singleton, he,
        List.map_append, ← hentry]
      rfl
  | delete id =>
      have hqueue : f.queue id = having h id l := hqueue
      change Function.update f.queue id _ id = having h id (substitute _ [] l)
      unfold having at hqueue ⊢
      rw [Function.update_self, hqueue,
        filter_substitute_self (fun r hr => absurd hr List.not_mem_nil)]
      -- The first entry of the id goes.
      cases l.filter (fun r => h.id r = id) with
      | nil => rfl
      | cons r rest => rfl
  | modify id name =>
      have hentry : h.entry e = (f.created, id, name) := by
        unfold Heap.entry
        rw [(hnew rfl).1, (hnew rfl).2, hcreated]
        rfl
      have he (r : Ref) (hr : r ∈ [e]) : decide (h.id r = id) = true :=
        List.mem_singleton.mp hr ▸ decide_eq_true (hnew rfl).1
      have hqueue : f.queue id = having h id l := hqueue
      change Function.update f.queue id _ id = having h id (substitute _ [e] l)
      unfold having at hqueue ⊢
      rw [Function.update_self, hqueue, filter_substitute_self he]
      -- The first entry of the id makes way for the new one.
      cases l.filter (fun r => h.id r = id) with
      | nil => rfl
      | cons r rest => exact congrArg (· :: rest.map h.entry) hentry.symm

/-- The queues of other ids stay as they are. -/
theorem queue_step_other {op : Op} {id : Int} (hid : id ≠ op.id) :
    (f.step op).queue id = f.queue id := by
  cases op with
  | add id' name => exact Function.update_of_ne hid _ _
  | delete id' => exact Function.update_of_ne hid _ _
  | modify id' name => exact Function.update_of_ne hid _ _

/-- A call that returns. -/
theorem Stands.step (h : Stands size s b f) (hsize : 1 ≤ size) {op : Op}
    (hrun : op.run s = some (.ok t)) : ∃ b', Stands size t b' (f.step op) := by
  have hrep := h.represents
  -- Otherwise the call would have thrown.
  have hfits : Fits size b op := by
    refine ⟨?_, fun hneeds hempty => ?_⟩
    · by_contra hid
      rw [hrep.run_throws hsize (Int.not_le.mp hid)] at hrun
      cases hrun
    · by_cases hid : 0 ≤ op.id.tmod size
      · rw [hrep.run_empty hsize hid hneeds hempty] at hrun
        cases hrun
      · rw [hrep.run_throws hsize (Int.not_le.mp hid)] at hrun
        cases hrun
  rcases hrep.run_ok hsize hfits with ⟨t', hrun', hrep', hkeeps, -⟩
  rw [hrun, Option.some.injEq, Except.ok.injEq] at hrun'
  subst hrun'
  have hentry (r : Ref) : t.heap.entry r = (op.before s).heap.entry r := by
    unfold Heap.entry
    rw [hkeeps.id, hkeeps.name]
  have hbefore (i : Nat) (r : Ref) (hr : r ∈ b i) :
      (op.before s).heap.entry r = s.heap.entry r := by
    have hold (id : Int) (name : Option String) :
        (s.create id name).heap.entry r = s.heap.entry r := by
      have hsame := s.heap.employee_create_of_lt id name (hrep.created i r hr)
      exact congrArg (fun x => (r, Employee.id x, Employee.name x)) hsame
    cases op with
    | add id name => exact hold id name
    | delete id => rfl
    | modify id name => exact hold id name
  refine ⟨_, hrep', ?_, fun id hid => ?_, fun id hid => ?_⟩
  · rw [hkeeps.count]
    cases op with
    | add id name => exact congrArg (· + 1) h.created
    | delete id => exact h.created
    | modify id name => exact congrArg (· + 1) h.created
  · rw [having_congr (fun r _ => hentry r)]
    -- The call's own id, another one in the same bucket, or another bucket.
    by_cases hop : id = op.id
    · rw [hop, Function.update_self]
      refine having_effect_self (entry_before s op) h.created ?_
      rw [h.queue op.id hfits.1, having_congr (hbefore _)]
    · rw [queue_step_other hop, h.queue id hid]
      by_cases hindex : index size id = index size op.id
      · rw [hindex, Function.update_self,
          having_effect_other (fun hc => (entry_before s op hc).1) hop, having_congr (hbefore _)]
      · rw [Function.update_of_ne hindex, having_congr (hbefore _)]
  · have hop : id ≠ op.id := fun hop => Int.not_le.mpr hid (hop ▸ hfits.1)
    rw [queue_step_other hop, h.none id hid]

/-- What a call that returns was. -/
theorem run_of_returns {op : Op} (h : returns s op = some t) : op.run s = some (.ok t) := by
  unfold returns call at h
  cases hrun : op.run s with
  | none =>
      rw [hrun] at h
      cases h
  | some result =>
      rw [hrun] at h
      cases result with
      | error e => cases h
      | ok t' =>
          cases h
          rfl

/-- A run in which no call throws. -/
theorem stands_of_exec (hsize : 1 ≤ size) (ops : List Op) : ∀ {s : State} {b : Nat → List Ref}
    {f : Fifo}, Stands size s b f → System.exec returns s ops = some t →
      ∃ b', Stands size t b' (ops.foldl Fifo.step f) := by
  induction ops with
  | nil =>
      intro s b f h hexec
      simp only [System.exec, Option.some.injEq] at hexec
      exact ⟨b, hexec ▸ h⟩
  | cons op ops ih =>
      intro s b f h hexec
      simp only [System.exec, Option.bind_eq_some_iff] at hexec
      rcases hexec with ⟨m, hstep, hexec⟩
      rcases h.step hsize (run_of_returns hstep) with ⟨b', h'⟩
      exact ih h' hexec

/-- What `GetEmployee` returns is the first entry of the queue. -/
theorem Stands.getEmployee (h : Stands size s b f) (hsize : 1 ≤ size) {id : Int}
    (hid : 0 ≤ id.tmod size) : ∃ e, s.getEmployee id = some (.ok e) ∧
      e.map s.heap.entry = (f.queue id).head? := by
  refine ⟨_, h.represents.getEmployee_ok hsize hid, ?_⟩
  rw [h.queue id hid, having, List.head?_map]

/-- A call that returns does not change what `GetEmployee` returns for another
    id. -/
theorem Stands.getEmployee_other (h : Stands size s b f) (hsize : 1 ≤ size) {op : Op}
    (hrun : op.run s = some (.ok t)) {id : Int} (hop : id ≠ op.id) :
    t.getEmployee id = s.getEmployee id := by
  rcases h.step hsize hrun with ⟨b', h'⟩
  by_cases hid : 0 ≤ id.tmod size
  · rcases h.getEmployee hsize hid with ⟨e, hget, hhead⟩
    rcases h'.getEmployee hsize hid with ⟨e', hget', hhead'⟩
    rw [queue_step_other hop, ← hhead] at hhead'
    have hsame := congrArg (Option.map Prod.fst) hhead'
    rw [Option.map_map, Option.map_map] at hsame
    have hsame : e'.map (fun r => r) = e.map (fun r => r) := hsame
    rw [Option.map_id', Option.map_id'] at hsame
    rw [hget, hget', hsame]
  · rw [h.represents.getEmployee_throws hsize (Int.not_le.mp hid),
      h'.represents.getEmployee_throws hsize (Int.not_le.mp hid)]

/-- After a run in which no call throws, `GetEmployee` returns the first entry
    of the queue of its id, unless it throws itself, which it does for the ids
    that can never be added. The queue is what the bucket has of the id, and a
    further call does not change what is returned for other ids. -/
theorem getEmployee_fifo (hsize : 1 ≤ size) {s₀ : State} (hnew : State.new size = .ok s₀)
    {ops : List Op} (hrun : System.exec returns s₀ ops = some s) :
    (∀ id : Int, 0 ≤ id.tmod size → ∃ e, s.getEmployee id = some (.ok e) ∧
      e.map s.heap.entry = ((fifo ops).queue id).head?) ∧
    (∀ id : Int, id.tmod size < 0 → s.getEmployee id = some (.error .indexOutOfRange) ∧
      (fifo ops).queue id = []) ∧
    (∀ id : Int, 0 ≤ id.tmod size → ∃ l refs, s.table.bucket id = .ok (index size id, l) ∧
      Chain s.heap.next l.header refs ∧ having s.heap id refs = (fifo ops).queue id) ∧
    ∀ (op : Op) (t : State), returns s op = some t → ∀ id : Int, id ≠ op.id →
      t.getEmployee id = s.getEmployee id := by
  have hstart : Stands size s₀ (fun _ => []) Fifo.empty := by
    have hrep := represents_of_new hsize hnew
    refine ⟨hrep, ?_, fun _ _ => rfl, fun _ _ => rfl⟩
    unfold State.new HashTable.new at hnew
    rw [if_neg (by omega), pure_bind] at hnew
    cases hnew
    rfl
  rcases stands_of_exec hsize ops hstart hrun with ⟨b, h⟩
  refine ⟨fun id hid => h.getEmployee hsize hid, fun id hid => ?_, fun id hid => ?_,
    fun op t hstep id hop => h.getEmployee_other hsize (run_of_returns hstep) hop⟩
  · exact ⟨h.represents.getEmployee_throws hsize hid, h.none id hid⟩
  · rcases h.represents.bucket_ok hsize hid with ⟨l, hbucket, hl⟩
    exact ⟨l, b (index size id), hbucket, h.represents.chain _ l hl, (h.queue id hid).symm⟩

end

/-- The calls of the sample, which collide. -/
def colliding : List Op :=
  [.add 1 (some "DD"), .add 6 (some "FF"), .delete 1, .add 11 (some "EE"), .add 100 (some "EE"),
    .modify 6 (some "tttttttt"), .modify 11 (some "eaaas")]

/-- A table with five buckets, after the calls of the sample. -/
theorem getEmployee_colliding : ∃ s₀ s e, State.new 5 = .ok s₀ ∧
    System.exec returns s₀ colliding = some s ∧ s.getEmployee 6 = some (.ok e) ∧
    e.map s.heap.entry = some (4, 6, some "tttttttt") := by
  rcases System.exists_exec returns
    { heap := Heap.empty, table := { map := List.replicate 5 { header := none }, size := 5 } }
    colliding (fun _ => true) (by decide +kernel) with ⟨s, hexec, -⟩
  rcases (@getEmployee_fifo 5 s (by decide) _ rfl colliding hexec).1 6 (by decide) with
    ⟨e, hget, hhead⟩
  exact ⟨_, s, e, rfl, hexec, hget, hhead⟩

end HashTableSample

end BlogSample
