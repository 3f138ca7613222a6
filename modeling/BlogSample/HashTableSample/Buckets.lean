import BlogSample.HashTableSample.Table

/-!
# What Is in the Buckets

`Represents` says which employees a bucket consists of, from its header on. No
employee is in two places, because the bucket of an employee is given by its
id and the employees of a bucket are all different. So a method that writes to
the employees of one bucket, and to a new one, leaves the other buckets alone.

A call either throws, because its id has no bucket or because `Delete` or
`Modify` finds the bucket empty, or it changes one bucket, by what `effect`
says.

## Main definitions

* `Represents`: The employees of every bucket.
* `Op.effect`: What a call does to its bucket.
* `Fits`: The call finds a bucket, and a header if it needs one.

## Theorems

* `Represents.bucket_ok`, `Represents.bucket_throws`: Where the bucket of an id
  is, and when there is none.
* `Represents.update`: One bucket is changed.
* `Represents.create`: A new employee is in no bucket.
* `Represents.run_ok`, `Represents.run_throws`: The calls.
* `represents_of_new`: A new table.
-/

namespace BlogSample

namespace HashTableSample

open DotNet Transition

/-- The employees of every bucket: each bucket is a chain of different ones,
    which have been created and belong there by their ids. -/
structure Represents (size : Int) (s : State) (b : Nat → List Ref) : Prop where
  sized : s.table.size = size
  filled : s.table.map.length = size.toNat
  chain (i : Nat) (l : EmployeeLinkedList) : s.table.map[i]? = some l →
    Chain s.heap.next l.header (b i)
  nodup (i : Nat) : (b i).Nodup
  created (i : Nat) (r : Ref) : r ∈ b i → r < s.heap.count
  hash (i : Nat) (r : Ref) : r ∈ b i → (s.heap.id r).tmod size = i

/-- The index that an id has. It is the one of a bucket if it is not
    negative. -/
def index (size id : Int) : Nat :=
  (id.tmod size).toNat

/-- Does the call need a header? -/
def Op.needsHeader : Op → Bool
  | .add _ _ => false
  | _ => true

/-- What a call does to the employees of its bucket, where `e` is the new
    one. -/
def Op.effect (h : Heap) (e : Ref) (l : List Ref) : Op → List Ref
  | .add _ _ => l ++ [e]
  | .delete id => substitute (fun r => h.id r = id) [] l
  | .modify id _ => substitute (fun r => h.id r = id) [e] l

/-- The method of a bucket that a call ends in, where `e` is the new employee. -/
def Op.method (h : Heap) (e : Ref) (l : EmployeeLinkedList) :
    Op → Option (Except Exn (Heap × EmployeeLinkedList))
  | .add _ _ => (l.add h e).map pure
  | .delete id => l.delete h id
  | .modify _ _ => l.modify h e

/-- The id of the call has a bucket, and the bucket has a header if the call
    needs one. -/
def Fits (size : Int) (b : Nat → List Ref) (op : Op) : Prop :=
  0 ≤ op.id.tmod size ∧ (op.needsHeader = true → b (index size op.id) ≠ [])

section

variable {size : Int} {s : State} {b : Nat → List Ref}

/-- A bucket is no longer than there are employees. -/
theorem Represents.length_lt_fuel (h : Represents size s b) (i : Nat) :
    (b i).length < s.heap.fuel := by
  have hsub : b i ⊆ List.range s.heap.count :=
    fun r hr => List.mem_range.mpr (h.created i r hr)
  have hle := (List.subperm_of_subset (h.nodup i) hsub).length_le
  rw [List.length_range] at hle
  exact Nat.lt_succ_of_le hle

/-- An id with a remainder that is not negative has a bucket. -/
theorem Represents.bucket_ok (h : Represents size s b) (hsize : 1 ≤ size) {id : Int}
    (hid : 0 ≤ id.tmod size) : ∃ l, s.table.bucket id = .ok (index size id, l) ∧
      s.table.map[index size id]? = some l := by
  have hlt : id.tmod size < size := Int.tmod_lt_of_pos id (by omega)
  have hindex : index size id < s.table.map.length := by
    rw [h.filled]
    unfold index
    omega
  refine ⟨_, ?_, List.getElem?_eq_getElem hindex⟩
  have hzero : ¬ size = 0 := by omega
  unfold HashTable.bucket HashTable.hashFunc
  rw [h.sized, if_neg hzero, pure_bind, if_neg (Int.not_lt.mpr hid)]
  rw [show s.table.map[(id.tmod size).toNat]? = some _ from List.getElem?_eq_getElem hindex]
  rfl

/-- An id with a negative remainder has none. -/
theorem Represents.bucket_throws (h : Represents size s b) (hsize : 1 ≤ size) {id : Int}
    (hid : id.tmod size < 0) : s.table.bucket id = .error .indexOutOfRange := by
  have hzero : ¬ size = 0 := by omega
  unfold HashTable.bucket HashTable.hashFunc
  rw [h.sized, if_neg hzero, pure_bind, if_pos hid]
  rfl

/-- One bucket is changed, by writing to its own employees and to one that is
    in no bucket. -/
theorem Represents.update (h : Represents size s b) {i : Nat} (hi : i < size.toNat)
    {heap : Heap} {l : EmployeeLinkedList} {refs ys : List Ref} (hkeeps : s.heap.Keeps heap)
    (hframe : ∀ r, r ∉ b i → r ∉ ys → heap.next r = s.heap.next r)
    (hys : ∀ y ∈ ys, ∀ j, y ∉ b j) (hchain : Chain heap.next l.header refs)
    (hnodup : refs.Nodup)
    (hrefs : ∀ r ∈ refs, r < s.heap.count ∧ (s.heap.id r).tmod size = i) :
    Represents size { heap := heap, table := { s.table with map := s.table.map.set i l } }
      (Function.update b i refs) := by
  refine ⟨h.sized, (List.length_set).trans h.filled, fun j l' hl' => ?_, fun j => ?_,
    fun j r hr => ?_, fun j r hr => ?_⟩
  · by_cases hj : j = i
    · rw [hj] at hl' ⊢
      rw [List.getElem?_set_self (h.filled ▸ hi), Option.some.injEq] at hl'
      rw [Function.update_self, ← hl']
      exact hchain
    -- The chains of two buckets have nothing in common, since an employee has
    -- one hash.
    · rw [List.getElem?_set_ne (Ne.symm hj)] at hl'
      rw [Function.update_of_ne hj]
      refine (h.chain j l' hl').congr (fun r hr => hframe r (fun hri => hj ?_) (fun hry => ?_))
      · exact Int.ofNat.inj ((h.hash j r hr).symm.trans (h.hash i r hri))
      · exact hys r hry j hr
  · by_cases hj : j = i
    · rw [hj, Function.update_self]
      exact hnodup
    · rw [Function.update_of_ne hj]
      exact h.nodup j
  · change r < heap.count
    rw [hkeeps.count]
    by_cases hj : j = i
    · rw [hj, Function.update_self] at hr
      exact (hrefs r hr).1
    · rw [Function.update_of_ne hj] at hr
      exact h.created j r hr
  · change (heap.id r).tmod size = j
    rw [hkeeps.id]
    by_cases hj : j = i
    · rw [hj, Function.update_self] at hr
      rw [hj]
      exact (hrefs r hr).2
    · rw [Function.update_of_ne hj] at hr
      exact h.hash j r hr

/-- A new employee is in no bucket. -/
theorem Represents.create (h : Represents size s b) (id : Int) (name : Option String) :
    Represents size (s.create id name) b := by
  have hold (i : Nat) (r : Ref) (hr : r ∈ b i) :
      (s.create id name).heap.employee r = s.heap.employee r :=
    s.heap.employee_create_of_lt id name (h.created i r hr)
  refine ⟨h.sized, h.filled, fun i l hl => ?_, h.nodup, fun i r hr => ?_, fun i r hr => ?_⟩
  · exact (h.chain i l hl).congr (fun r hr => congrArg Employee.next (hold i r hr))
  · exact Nat.lt_succ_of_lt (h.created i r hr)
  · rw [show (s.create id name).heap.id r = s.heap.id r from
      congrArg Employee.id (hold i r hr)]
    exact h.hash i r hr

/-- The new employee is none of those in the buckets. -/
theorem Represents.not_mem_count (h : Represents size s b) (i : Nat) : s.heap.count ∉ b i :=
  fun hmem => Nat.lt_irrefl _ (h.created i _ hmem)

/-- A method has gone well: the bucket consists of `refs`, and no employee
    outside of it has been written to but those of `ys`. If the method had
    nothing to do, nothing has changed. -/
structure Went (heap : Heap) (l : EmployeeLinkedList) (old refs ys : List Ref) (idle : Prop)
    (result : Heap × EmployeeLinkedList) : Prop where
  chain : Chain result.1.next result.2.header refs
  keeps : heap.Keeps result.1
  frame (r : Ref) : r ∉ old → r ∉ ys → result.1.next r = heap.next r
  same : idle → result = (heap, l)

section Methods

variable {heap : Heap} {l : EmployeeLinkedList} {refs : List Ref} {e : Ref}

/-- `Add` on a bucket. -/
theorem add_went (hchain : Chain heap.next l.header refs) (hnodup : refs.Nodup)
    (hfuel : refs.length < heap.fuel) (he : e ∉ refs) (hnext : heap.next e = none) :
    ∃ result, l.add heap e = some result ∧
      Went heap l refs (refs ++ [e]) [e] False result := by
  unfold EmployeeLinkedList.add
  cases refs with
  | nil =>
      rw [show l.header = none from hchain]
      exact ⟨_, rfl, ⟨rfl, hnext⟩, heap.keeps_refl, fun _ _ _ => rfl, False.elim⟩
  | cons header rest =>
      have hheader : l.header = some header := hchain.1
      rw [hheader] at hchain ⊢
      rcases addLast_spec rest (Nat.lt_of_succ_lt hfuel) hchain hnodup he hnext with
        ⟨heap', hloop, hchain', hkeeps, hframe⟩
      refine ⟨(heap', l), ?_, ?_, hkeeps, fun r hr _ => hframe r hr, False.elim⟩
      · simp only [hloop, Option.map_some]
      · exact hheader ▸ hchain'

/-- `Delete` and `Modify` on a bucket with a header: the first employee with
    the id is replaced. -/
theorem splice_went {ys : List Ref} {found : Ref → Ref → Heap} {header : Ref} {rest : List Ref}
    {id : Int} {first : Heap × EmployeeLinkedList} (hfound : Splices heap ys found)
    (hchain : Chain heap.next l.header (header :: rest)) (hnodup : (header :: rest).Nodup)
    (hfuel : (header :: rest).length < heap.fuel) (hys : ∀ y ∈ ys, y ∉ header :: rest)
    (hfirst : heap.id header = id →
      Went heap l (header :: rest) (ys ++ rest) ys False first) :
    ∃ result, (if heap.id header = id then some (pure first)
      else (walk found heap.fuel heap header id).map fun heap => pure (heap, l)) =
        (some (.ok result) : Option (Except Exn _)) ∧
      Went heap l (header :: rest) (substitute (fun r => heap.id r = id) ys (header :: rest)) ys
        (∀ r ∈ header :: rest, heap.id r ≠ id) result := by
  by_cases hid : heap.id header = id
  · refine ⟨first, if_pos hid, ?_⟩
    rw [substitute, if_pos (by simpa using hid)]
    rcases hfirst hid with ⟨hchain', hkeeps, hframe, -⟩
    exact ⟨hchain', hkeeps, hframe, fun hnone => absurd hid (hnone header List.mem_cons_self)⟩
  -- The header stays, and the walk does the rest.
  · have hheader : l.header = some header := hchain.1
    rw [hheader] at hchain
    rcases @walk_spec heap id ys found hfound rest _ _ (Nat.lt_of_succ_lt hfuel) hchain hnodup
      hys with ⟨heap', hloop, hchain', hkeeps, hframe, hsame⟩
    refine ⟨(heap', l), ?_, ?_⟩
    · rw [if_neg hid, hloop]
      rfl
    · rw [substitute, if_neg (by simpa using hid)]
      refine ⟨hheader ▸ hchain', hkeeps, hframe, fun hnone => ?_⟩
      rw [hsame (fun r hr => hnone r (List.mem_cons_of_mem header hr))]

/-- `Delete` on a bucket that is not empty. -/
theorem delete_went {id : Int} (hchain : Chain heap.next l.header refs) (hnodup : refs.Nodup)
    (hfuel : refs.length < heap.fuel) (hrefs : refs ≠ []) :
    ∃ result, l.delete heap id = some (.ok result) ∧
      Went heap l refs (substitute (fun r => heap.id r = id) [] refs) []
        (∀ r ∈ refs, heap.id r ≠ id) result := by
  cases refs with
  | nil => exact absurd rfl hrefs
  | cons header rest =>
      unfold EmployeeLinkedList.delete
      rw [hchain.1]
      refine splice_went splices_delete hchain hnodup hfuel (fun y hy => absurd hy List.not_mem_nil)
        (fun _ => ⟨hchain.2, heap.keeps_refl, fun _ _ _ => rfl, False.elim⟩)

/-- `Modify` on a bucket that is not empty. -/
theorem modify_went (hchain : Chain heap.next l.header refs) (hnodup : refs.Nodup)
    (hfuel : refs.length < heap.fuel) (hrefs : refs ≠ []) (he : e ∉ refs) :
    ∃ result, l.modify heap e = some (.ok result) ∧
      Went heap l refs (substitute (fun r => heap.id r = heap.id e) [e] refs) [e]
        (∀ r ∈ refs, heap.id r ≠ heap.id e) result := by
  cases refs with
  | nil => exact absurd rfl hrefs
  | cons header rest =>
      have hys (y : Ref) (hy : y ∈ [e]) : y ∉ header :: rest := List.mem_singleton.mp hy ▸ he
      unfold EmployeeLinkedList.modify
      rw [hchain.1]
      refine splice_went splices_modify hchain hnodup hfuel hys (fun _ => ⟨⟨rfl, ?_⟩,
        heap.keeps_setNext e _, fun r _ hr => ?_, False.elim⟩)
      · rw [heap.next_setNext_self]
        refine hchain.2.congr (fun r hr => heap.next_setNext_of_ne ?_ _)
        exact fun h => he (h ▸ List.mem_cons_of_mem header hr)
      · exact heap.next_setNext_of_ne (List.ne_of_not_mem_cons hr) _

end Methods

section

variable {size : Int} {s : State} {b : Nat → List Ref}

/-- A method that has gone well on the bucket of an id. -/
theorem Represents.onBucket (h : Represents size s b) (hsize : 1 ≤ size) {id : Int}
    (hid : 0 ≤ id.tmod size) {refs ys : List Ref} {idle : Prop}
    {method : EmployeeLinkedList → Option (Except Exn (Heap × EmployeeLinkedList))}
    (hmethod : ∀ l, Chain s.heap.next l.header (b (index size id)) → ∃ result,
      method l = some (.ok result) ∧ Went s.heap l (b (index size id)) refs ys idle result)
    (hys : ∀ y ∈ ys, ∀ j, y ∉ b j) (hnodup : refs.Nodup)
    (hrefs : ∀ r ∈ refs, r < s.heap.count ∧ (s.heap.id r).tmod size = index size id) :
    ∃ t, s.onBucket id method = some (.ok t) ∧
      Represents size t (Function.update b (index size id) refs) ∧ s.heap.Keeps t.heap ∧
      (idle → t = s) := by
  rcases h.bucket_ok hsize hid with ⟨l, hbucket, hl⟩
  rcases hmethod l (h.chain _ l hl) with ⟨⟨heap, l'⟩, hrun, hchain, hkeeps, hframe, hsame⟩
  have hindex : index size id < size.toNat := h.filled ▸ (List.getElem?_eq_some_iff.mp hl).1
  refine ⟨_, ?_, h.update hindex hkeeps hframe hys hchain hnodup hrefs, hkeeps, fun hidle => ?_⟩
  · unfold State.onBucket
    simp only [hbucket, hrun, Option.map_some]
    rfl
  -- The bucket is written back as it was.
  · cases hsame hidle
    have hset : s.table.map.set (index size id) l = s.table.map := by
      rw [← List.getElem?_eq_some_iff.mp hl |>.2]
      exact List.set_getElem_self _
    rw [hset]

end

/-- The employees stay where they are when a new one is created. -/
theorem Represents.before (h : Represents size s b) (op : Op) :
    Represents size (op.before s) b := by
  cases op with
  | add id name => exact h.create id name
  | delete id => exact h
  | modify id name => exact h.create id name

/-- The id of the employee that is created for a call. -/
theorem id_create (s : State) (id : Int) (name : Option String) :
    (s.create id name).heap.id s.heap.count = id :=
  congrArg Employee.id (s.heap.employee_create_self id name)

/-- A call goes to the bucket of its id. -/
theorem run_eq (s : State) (op : Op) :
    op.run s = (op.before s).onBucket op.id
      fun l => op.method (op.before s).heap s.heap.count l := by
  cases op with
  | add id name =>
      change (s.create id name).onBucket ((s.create id name).heap.id s.heap.count) _ = _
      rw [id_create]
      rfl
  | delete id => rfl
  | modify id name =>
      change (s.create id name).onBucket ((s.create id name).heap.id s.heap.count) _ = _
      rw [id_create]
      rfl

/-- A call whose id has no bucket. -/
theorem Represents.run_throws (h : Represents size s b) (hsize : 1 ≤ size) {op : Op}
    (hid : op.id.tmod size < 0) : op.run s = some (.error .indexOutOfRange) := by
  rw [run_eq]
  unfold State.onBucket
  rw [(h.before op).bucket_throws hsize hid]
  rfl

/-- A call that needs a header and finds none. -/
theorem Represents.run_empty (h : Represents size s b) (hsize : 1 ≤ size) {op : Op}
    (hid : 0 ≤ op.id.tmod size) (hneeds : op.needsHeader = true)
    (hempty : b (index size op.id) = []) : op.run s = some (.error .nullReference) := by
  rcases (h.before op).bucket_ok hsize hid with ⟨l, hbucket, hl⟩
  have hheader : l.header = none := by
    have hchain := (h.before op).chain _ l hl
    rw [hempty] at hchain
    exact hchain
  have hmethod : op.method (op.before s).heap s.heap.count l = some (.error .nullReference) := by
    cases op with
    | add id name => cases hneeds
    | delete id =>
        unfold Op.method EmployeeLinkedList.delete
        rw [hheader]
        rfl
    | modify id name =>
        unfold Op.method EmployeeLinkedList.modify
        rw [hheader]
        rfl
  rw [run_eq]
  unfold State.onBucket
  simp only [hbucket, hmethod]
  rfl

/-- The employees of a bucket after a call are different, and belong there. -/
theorem Represents.effect_mem (h : Represents size s b) (op : Op) (hid : 0 ≤ op.id.tmod size) :
    (op.effect (op.before s).heap s.heap.count (b (index size op.id))).Nodup ∧
      ∀ r ∈ op.effect (op.before s).heap s.heap.count (b (index size op.id)),
        r < (op.before s).heap.count ∧
          ((op.before s).heap.id r).tmod size = index size op.id := by
  -- What was in the bucket stays within the heap and under its index.
  have hold (r : Ref) (hr : r ∈ b (index size op.id)) :
      r < (op.before s).heap.count ∧ ((op.before s).heap.id r).tmod size = index size op.id :=
    ⟨(h.before op).created _ r hr, (h.before op).hash _ r hr⟩
  have hindex : op.id.tmod size = (index size op.id : Nat) := (Int.toNat_of_nonneg hid).symm
  -- The new node is in no bucket yet.
  have hfresh (r : Ref) (hr : r ∈ [s.heap.count]) : r ∉ b (index size op.id) :=
    List.mem_singleton.mp hr ▸ h.not_mem_count _
  cases op with
  | add id name =>
      refine ⟨List.nodup_append'.mpr ⟨h.nodup _, List.nodup_singleton _,
        fun r hr hr' => hfresh r hr' hr⟩, fun r hr => ?_⟩
      rcases List.mem_append.mp hr with hr | hr
      · exact hold r hr
      · rw [List.mem_singleton.mp hr]
        exact ⟨Nat.lt_succ_self _, (congrArg (Int.tmod · size) (id_create s id name)).trans hindex⟩
  | delete id =>
      refine ⟨nodup_substitute (h.nodup _) List.nodup_nil
        (fun r hr => absurd hr List.not_mem_nil), fun r hr => ?_⟩
      rcases mem_or_mem_of_mem_substitute hr with hr | hr
      · cases hr
      · exact hold r hr
  | modify id name =>
      refine ⟨nodup_substitute (h.nodup _) (List.nodup_singleton _) hfresh, fun r hr => ?_⟩
      rcases mem_or_mem_of_mem_substitute hr with hr | hr
      · rw [List.mem_singleton.mp hr]
        exact ⟨Nat.lt_succ_self _, (congrArg (Int.tmod · size) (id_create s id name)).trans hindex⟩
      · exact hold r hr

/-- The method of a call that fits goes well. -/
theorem Represents.method_went (h : Represents size s b) {op : Op} (hfits : Fits size b op)
    {l : EmployeeLinkedList}
    (hchain : Chain (op.before s).heap.next l.header (b (index size op.id))) :
    ∃ result, op.method (op.before s).heap s.heap.count l = some (.ok result) ∧
      Went (op.before s).heap l (b (index size op.id))
        (op.effect (op.before s).heap s.heap.count (b (index size op.id))) [s.heap.count]
        (op.needsHeader = true ∧
          ∀ r ∈ b (index size op.id), (op.before s).heap.id r ≠ op.id) result := by
  have hnodup := h.nodup (index size op.id)
  have hfuel := (h.before op).length_lt_fuel (index size op.id)
  have hfresh := h.not_mem_count (index size op.id)
  -- Each method on the list of the bucket, with enough fuel for its nodes.
  cases op with
  | add id name =>
      rcases add_went hchain hnodup hfuel hfresh
        (congrArg Employee.next (s.heap.employee_create_self id name)) with ⟨result, hadd, hwent⟩
      refine ⟨result, congrArg (Option.map pure) hadd, hwent.chain, hwent.keeps, hwent.frame, ?_⟩
      exact fun hidle => absurd hidle.1 Bool.false_ne_true
  | delete id =>
      rcases @delete_went _ _ _ id hchain hnodup hfuel (hfits.2 rfl) with ⟨result, hdelete, hwent⟩
      exact ⟨result, hdelete, hwent.chain, hwent.keeps,
        fun r hr _ => hwent.frame r hr List.not_mem_nil, fun hidle => hwent.same hidle.2⟩
  | modify id name =>
      rcases modify_went hchain hnodup hfuel (hfits.2 rfl) hfresh with ⟨result, hmodify, hwent⟩
      have hnew : (Op.before s (.modify id name)).heap.id s.heap.count = id := id_create s id name
      rw [hnew] at hwent
      exact ⟨result, hmodify, hwent.chain, hwent.keeps, hwent.frame,
        fun hidle => hwent.same hidle.2⟩

/-- A call that fits changes its bucket as `effect` says. If it looks for an
    employee that is not there, it changes nothing. -/
theorem Represents.run_ok (h : Represents size s b) (hsize : 1 ≤ size) {op : Op}
    (hfits : Fits size b op) : ∃ t, op.run s = some (.ok t) ∧
      Represents size t (Function.update b (index size op.id)
        (op.effect (op.before s).heap s.heap.count (b (index size op.id)))) ∧
      (op.before s).heap.Keeps t.heap ∧
      (op.needsHeader = true ∧
        (∀ r ∈ b (index size op.id), (op.before s).heap.id r ≠ op.id) → t = op.before s) := by
  rcases h.effect_mem op hfits.1 with ⟨hnodup, hrefs⟩
  rw [run_eq]
  exact (h.before op).onBucket hsize hfits.1 (fun l hchain => h.method_went hfits hchain)
    (fun y hy j => List.mem_singleton.mp hy ▸ h.not_mem_count j) hnodup hrefs

/-- `GetEmployee` returns the first employee of the bucket with the id. -/
theorem Represents.getEmployee_ok (h : Represents size s b) (hsize : 1 ≤ size) {id : Int}
    (hid : 0 ≤ id.tmod size) : s.getEmployee id =
      some (.ok ((b (index size id)).filter (fun r => s.heap.id r = id)).head?) := by
  rcases h.bucket_ok hsize hid with ⟨l, hbucket, hl⟩
  unfold State.getEmployee EmployeeLinkedList.get
  simp only [hbucket, find_spec _ (h.length_lt_fuel _) (h.chain _ l hl), Option.map_some]
  rfl

/-- `GetEmployee` with an id that has no bucket. -/
theorem Represents.getEmployee_throws (h : Represents size s b) (hsize : 1 ≤ size) {id : Int}
    (hid : id.tmod size < 0) : s.getEmployee id = some (.error .indexOutOfRange) := by
  unfold State.getEmployee
  rw [h.bucket_throws hsize hid]
  rfl

/-- The buckets of a new table are empty. -/
theorem represents_of_new (hsize : 1 ≤ size) (hnew : State.new size = .ok s) :
    Represents size s (fun _ => []) := by
  unfold State.new HashTable.new at hnew
  rw [if_neg (by omega), pure_bind] at hnew
  cases hnew
  refine ⟨rfl, List.length_replicate, fun i l hl => ?_, fun _ => List.nodup_nil,
    fun _ r hr => absurd hr List.not_mem_nil, fun _ r hr => absurd hr List.not_mem_nil⟩
  rw [List.eq_of_mem_replicate (List.mem_of_getElem? hl)]
  rfl

end

end HashTableSample

end BlogSample
