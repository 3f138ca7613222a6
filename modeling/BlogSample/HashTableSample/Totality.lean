import BlogSample.HashTableSample.Buckets
import BlogSample.Int32

/-!
# When a Call Throws

`HashFunc` keeps the sign of the id, so an id with a negative remainder has no
bucket. `Delete` and `Modify` compare the header with the id only if there is
one, and then start their loop from it whether there is one or not, so both
throw on an empty bucket.

These are the only exceptions, in every state that calls lead to, and whether
or not earlier calls threw. Every other call returns, and leaves the table as
it was if it looked for an employee that was not there.

## Main definitions

* `calls`: The runs of calls, which may throw.
* `Absent`: No bucket has an employee with the id.
* `hasHeader`: The bucket of the id is not empty.
* `Total`: A call returns, and leaves the table as it was if it has to.

## Theorems

* `total_iff`: The calls that return.
* `total_fails`: Two that throw.
-/

namespace BlogSample

namespace HashTableSample

open DotNet Transition

/-- The runs of calls on a new table. A call that throws is caught. -/
def calls (size : Int) : System State Op :=
  System.ofFn (fun s => State.new size = .ok s) after

/-- No bucket has an employee with the id. -/
def Absent (s : State) (id : Int) : Prop :=
  ∀ l ∈ s.table.map, ∀ refs, Chain s.heap.next l.header refs → ∀ r ∈ refs, s.heap.id r ≠ id

/-- The bucket of the id is not empty. -/
def hasHeader (s : State) (id : Int) : Bool :=
  match s.table.map[index s.table.size id]? with
  | some l => l.header.isSome
  | none => false

/-- The call returns. If it is `Delete` or `Modify`, and no bucket has an
    employee with the id, the state is the one in which it was called. -/
def Total (s : State) (op : Op) : Prop :=
  ∃ t, op.run s = some (.ok t) ∧
    (op.needsHeader = true → Absent s op.id → t = op.before s)

section

variable {size : Int} {s : State} {b : Nat → List Ref}

/-- A call that throws or returns leaves the buckets in order. -/
theorem Represents.after (h : Represents size s b) (hsize : 1 ≤ size) {op : Op} {t : State}
    (hafter : after s op = some t) : ∃ b', Represents size t b' := by
  have hthrows (e : Exn) (hrun : op.run s = some (.error e)) : ∃ b', Represents size t b' := by
    unfold HashTableSample.after call at hafter
    rw [hrun] at hafter
    cases hafter
    exact ⟨b, h.before op⟩
  by_cases hid : 0 ≤ op.id.tmod size
  · by_cases hheader : op.needsHeader = true → b (index size op.id) ≠ []
    · rcases h.run_ok hsize ⟨hid, hheader⟩ with ⟨t', hrun, hrep, -⟩
      unfold HashTableSample.after call at hafter
      rw [hrun] at hafter
      cases hafter
      exact ⟨_, hrep⟩
    · rcases Classical.not_imp.mp hheader with ⟨hneeds, hempty⟩
      exact hthrows _ (h.run_empty hsize hid hneeds (not_not.mp hempty))
  · exact hthrows _ (h.run_throws hsize (Int.not_le.mp hid))

/-- Every state of a run has its buckets in order. -/
theorem represents_of_reachable (hsize : 1 ≤ size) (h : (calls size).Reachable s) :
    ∃ b, Represents size s b := by
  refine h.invariant (fun s => ∃ b, Represents size s b) (fun s hs => ?_) (fun s a t hs hst => ?_)
  · exact ⟨_, represents_of_new hsize hs⟩
  · rcases hs with ⟨b, hb⟩
    exact hb.after hsize hst

/-- A bucket has a header unless it is empty. -/
theorem Represents.hasHeader_iff (h : Represents size s b) (hsize : 1 ≤ size) {id : Int}
    (hid : 0 ≤ id.tmod size) : hasHeader s id = true ↔ b (index size id) ≠ [] := by
  rcases h.bucket_ok hsize hid with ⟨l, -, hl⟩
  have hchain := h.chain _ l hl
  unfold hasHeader
  rw [h.sized, hl]
  change l.header.isSome = true ↔ _
  cases hrefs : b (index size id) with
  | nil =>
      rw [hrefs] at hchain
      rw [show l.header = none from hchain]
      exact ⟨fun hsome => absurd hsome Bool.false_ne_true, fun hne => absurd rfl hne⟩
  | cons r rest =>
      rw [hrefs] at hchain
      rw [hchain.1]
      exact ⟨fun _ => List.cons_ne_nil r rest, fun _ => rfl⟩

/-- An id that no bucket has is not in its own bucket, before the call or when
    the method is called. -/
theorem Represents.not_mem_of_absent (h : Represents size s b) (hsize : 1 ≤ size) {op : Op}
    (hid : 0 ≤ op.id.tmod size) (habsent : Absent s op.id) :
    ∀ r ∈ b (index size op.id), (op.before s).heap.id r ≠ op.id := by
  intro r hr
  rcases h.bucket_ok hsize hid with ⟨l, -, hl⟩
  have hne := habsent l (List.mem_of_getElem? hl) _ (h.chain _ l hl) r hr
  have hold (id : Int) (name : Option String) : (s.create id name).heap.id r = s.heap.id r :=
    congrArg Employee.id (s.heap.employee_create_of_lt id name (h.created _ r hr))
  cases op with
  | add id name => exact hold id name ▸ hne
  | delete id => exact hne
  | modify id name => exact hold id name ▸ hne

/-- `Add` and `GetEmployee` return if the remainder of the id is not negative.
    `Delete` and `Modify` return if the bucket is not empty besides, and leave
    every bucket as it was if the id is in none. No other call returns. -/
theorem total_iff (hsize : 1 ≤ size) (h : (calls size).Reachable s) :
    (∀ op : Op, Total s op ↔
      0 ≤ op.id.tmod size ∧ (op.needsHeader = true → hasHeader s op.id = true)) ∧
    ∀ id : Int, (∃ e, s.getEmployee id = some (.ok e)) ↔ 0 ≤ id.tmod size := by
  rcases represents_of_reachable hsize h with ⟨b, hb⟩
  refine ⟨fun op => ⟨fun htotal => ?_, fun hcond => ?_⟩, fun id => ⟨fun hget => ?_, fun hid => ?_⟩⟩
  · rcases htotal with ⟨t, hrun, -⟩
    have hid : 0 ≤ op.id.tmod size := by
      by_contra hid
      rw [hb.run_throws hsize (Int.not_le.mp hid)] at hrun
      cases hrun
    refine ⟨hid, fun hneeds => (hb.hasHeader_iff hsize hid).mpr (fun hempty => ?_)⟩
    rw [hb.run_empty hsize hid hneeds hempty] at hrun
    cases hrun
  · rcases hcond with ⟨hid, hheader⟩
    have hfits : Fits size b op :=
      ⟨hid, fun hneeds => (hb.hasHeader_iff hsize hid).mp (hheader hneeds)⟩
    rcases hb.run_ok hsize hfits with ⟨t, hrun, -, -, hsame⟩
    exact ⟨t, hrun, fun hneeds habsent =>
      hsame ⟨hneeds, hb.not_mem_of_absent hsize hid habsent⟩⟩
  · rcases hget with ⟨e, hget⟩
    by_contra hid
    rw [hb.getEmployee_throws hsize (Int.not_le.mp hid)] at hget
    cases hget
  · exact ⟨_, hb.getEmployee_ok hsize hid⟩

end

/-- A new table with five buckets. -/
def fiveBuckets : State where
  heap := Heap.empty
  table := { map := List.replicate 5 { header := none }, size := 5 }

/-- In a new table, every `Delete` throws, and so does `Add` of an employee with
    a negative id. -/
theorem total_fails : (calls 5).Reachable fiveBuckets ∧
    (Op.delete 1).run fiveBuckets = some (.error .nullReference) ∧
    (Op.add (-1) none).run fiveBuckets = some (.error .indexOutOfRange) ∧
    ¬ ∀ size : Int, 1 ≤ size → ∀ s, (calls size).Reachable s → ∀ op : Op, InRange op.id →
      Total s op := by
  have hreach : (calls 5).Reachable fiveBuckets := .init _ rfl
  refine ⟨hreach, rfl, rfl, fun htotal => ?_⟩
  rcases htotal 5 (by decide) fiveBuckets hreach (.delete 1) (by decide) with ⟨t, hrun, -⟩
  cases hrun

/-- `Add` and `GetEmployee` with the id 6, and `Delete` of an id that is not in
    its bucket. -/
theorem total_fiveBuckets : ∃ s, (calls 5).Reachable s ∧ Total s (.delete 1) ∧
    ∃ e, s.getEmployee 6 = some (.ok e) := by
  rcases System.exists_exec after fiveBuckets [.add 6 (some "FF")]
    (fun s => hasHeader s 1 && s.table.size == 5) (by decide) with ⟨s, hexec, hend⟩
  have hreach : (calls 5).Reachable s :=
    System.reachable_of_exec [.add 6 (some "FF")] fiveBuckets s (.init _ rfl) hexec
  have hiff := total_iff (by decide) hreach
  exact ⟨s, hreach, (hiff.1 (.delete 1)).mpr ⟨by decide, fun _ => (Bool.and_eq_true_iff.mp hend).1⟩,
    (hiff.2 6).mpr (by decide)⟩

end HashTableSample

end BlogSample
