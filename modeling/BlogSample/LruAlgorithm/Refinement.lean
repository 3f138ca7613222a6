import BlogSample.LruAlgorithm.DoubleLinkedList
import BlogSample.LruAlgorithm.Reference

/-!
# The Cache Refines the List

`LRUCache` keeps a dictionary from keys to nodes and a linked list of the
same nodes. `Represents` ties the two to a list of entries, the most recently
used first: the nodes of the linked list carry the entries, and the
dictionary finds each of them by its key.

Every call keeps the relation and never follows a null reference, so a run
returns what the list returns.

## Main definitions

* `LRUCache`: The dictionary, the linked list and its heap.
* `get`, `put`: The methods.
* `Represents`: The entries of a cache.

## Theorems

* `get_represents`, `put_represents`: What a call does to the entries.
* `run_represents`: What some calls do.
* `lru_refines`: A cache returns what its entries say.
-/

namespace BlogSample

namespace LruAlgorithm

open DotNet

/-- An `LRUCache`: its fields, and the nodes it has created. -/
structure LRUCache where
  map : Dictionary Int Ref
  linkedList : DoubleLinkedList
  capacity : Int
  heap : Heap Int Int

namespace LRUCache

/-- `new LRUCache(capacity)`. -/
def new (capacity : Int) : LRUCache :=
  let linkedList := DoubleLinkedList.new []
  ⟨Dictionary.empty, linkedList.1, capacity, linkedList.2⟩

/-- `Get(key)`. -/
def get (key : Int) (c : LRUCache) : Except Exn (Int × LRUCache) :=
  match c.map.tryGetValue key with
  | some node => do
      let heap ← DoubleLinkedList.removeNode node c.heap
      let heap ← c.linkedList.addHeader node heap
      match heap.entry node with
      | some e => pure (e.2, { c with heap })
      | none => throw .nullReference
  | none => pure (-1, c)

/-- The part of `Put` that drops the last entry when there is no room. -/
def makeRoom (heap : Heap Int Int) (c : LRUCache) :
    Except Exn (Heap Int Int × Dictionary Int Ref) :=
  if (c.map.count : Int) = c.capacity then do
    let lastNode ← DoubleLinkedList.nonNull (c.linkedList.getLastNode heap)
    let heap ← DoubleLinkedList.removeNode lastNode heap
    match heap.entry lastNode with
    | some e => pure (heap, c.map.remove e.1)
    | none => throw .nullReference
  else pure (heap, c.map)

/-- `Put(key, value)`. -/
def put (key value : Int) (c : LRUCache) : Except Exn LRUCache :=
  let newNode := c.heap.length
  let heap := c.heap.alloc ⟨value, key, none, none⟩
  match c.map.tryGetValue key with
  | some node => do
      let heap ← DoubleLinkedList.removeNode node heap
      let heap ← c.linkedList.addHeader newNode heap
      pure { c with heap, map := c.map.set key newNode }
  | none => do
      let room ← c.makeRoom heap
      let map := room.2.set key newNode
      let heap ← c.linkedList.addHeader newNode room.1
      pure { c with heap, map }

/-- A call, and what it returns if it returns anything. -/
def call (op : Op Int Int) (c : LRUCache) : Except Exn (Option Int × LRUCache) :=
  match op with
  | .get key => do
      let r ← c.get key
      pure (some r.1, r.2)
  | .put key value => do
      let c ← c.put key value
      pure (none, c)

/-- Some calls, and what they return. -/
def run : List (Op Int Int) → LRUCache → Except Exn (List (Option Int) × LRUCache)
  | [], c => pure ([], c)
  | op :: ops, c => do
      let r ← c.call op
      let s ← run ops r.2
      pure (r.1 :: s.1, s.2)

/-- What a call returns, by what is found. -/
def reply (op : Op Int Int) (found : Option Int) : Option Int :=
  match op with
  | .get _ => some (found.getD (-1))
  | .put _ _ => none

/-- The nodes of the linked list carry the entries, and the dictionary finds
    each node by the key of its entry. -/
structure Represents (c : LRUCache) (refs : List Ref) (l : MruList Int Int) : Prop where
  holds : c.linkedList.Holds c.heap refs
  entries : refs.map c.heap.entry = l.map some
  found : ∀ key node, c.map.tryGetValue key = some node ↔
    node ∈ refs ∧ ∃ value, c.heap.entry node = some (key, value)
  count : c.map.count = refs.length
  keys : (l.map Prod.fst).Nodup

theorem new_represents (capacity : Int) : Represents (new capacity) [] [] where
  holds := DoubleLinkedList.new_holds
  entries := rfl
  found := by
    intro key node
    refine iff_of_false (fun h => ?_) (fun h => List.not_mem_nil h.1)
    cases h
  count := rfl
  keys := List.nodup_nil

variable {c : LRUCache} {refs : List Ref} {l : MruList Int Int}

theorem Represents.length (h : Represents c refs l) : refs.length = l.length := by
  have hlen := congrArg List.length h.entries
  rw [List.length_map, List.length_map] at hlen
  exact hlen

/-- A node of the list carries an entry. -/
theorem Represents.entry_mem (h : Represents c refs l) {node : Ref} (hn : node ∈ refs) :
    ∃ e ∈ l, c.heap.entry node = some e := by
  have hmem : c.heap.entry node ∈ l.map some := by
    rw [← h.entries]
    exact List.mem_map.mpr ⟨node, hn, rfl⟩
  rcases List.mem_map.mp hmem with ⟨e, he, heq⟩
  exact ⟨e, he, heq.symm⟩

/-- The dictionary knows the keys of the entries and no others. -/
theorem Represents.found_none (h : Represents c refs l) {key : Int} :
    c.map.tryGetValue key = none ↔ key ∉ l.map Prod.fst := by
  constructor
  · intro hnone hmem
    rcases List.mem_map.mp hmem with ⟨e, he, heq⟩
    have hentry : some e ∈ refs.map c.heap.entry := by
      rw [h.entries]
      exact List.mem_map.mpr ⟨e, he, rfl⟩
    rcases List.mem_map.mp hentry with ⟨node, hnode, hval⟩
    have hfound := (h.found key node).mpr ⟨hnode, e.2, by rw [hval, ← heq]⟩
    rw [hnone] at hfound
    cases hfound
  · intro hnot
    cases hfound : c.map.tryGetValue key with
    | none => rfl
    | some node =>
        rcases (h.found key node).mp hfound with ⟨hnode, value, hval⟩
        rcases h.entry_mem hnode with ⟨e, he, heq⟩
        rw [hval] at heq
        exact absurd (List.mem_map.mpr ⟨e, he, by rw [← Option.some.inj heq]⟩) hnot

/-- An entry that is not a key's is found under another key. -/
theorem Represents.entry_ne (h : Represents c refs l) {key k : Int} (hkey : key ∉ l.map Prod.fst)
    {node : Ref} (hnode : node ∈ refs) {v : Int} (hv : c.heap.entry node = some (k, v)) :
    k ≠ key := by
  intro heq
  rcases h.entry_mem hnode with ⟨e, he, hval⟩
  rw [hv] at hval
  refine hkey (List.mem_map.mpr ⟨e, he, ?_⟩)
  rw [← Option.some.inj hval, heq]

/-- Another node may be created. -/
theorem Represents.alloc (h : Represents c refs l) (key value : Int) :
    Represents { c with heap := c.heap.alloc ⟨value, key, none, none⟩ } refs l := by
  have hentry : ∀ node ∈ refs,
      (c.heap.alloc ⟨value, key, none, none⟩).entry node = c.heap.entry node := by
    intro node hnode
    exact Heap.entry_new_of_lt (h.holds.valid node (by simp [hnode])) _
  refine ⟨h.holds.new_node key value, ?_, ?_, h.count, h.keys⟩
  · rw [← h.entries]
    exact List.map_congr_left hentry
  · intro k node
    refine (h.found k node).trans (and_congr_right fun hnode => ?_)
    rw [hentry node hnode]

/-- The linked list lacks the node of a key, and the dictionary still finds
    it. -/
structure Detached (c : LRUCache) (key value : Int) (node : Ref) (heap : Heap Int Int)
    (refs : List Ref) (l : MruList Int Int) : Prop where
  holds : c.linkedList.Holds heap refs
  entries : refs.map heap.entry = l.map some
  entry : heap.entry = c.heap.entry
  self : c.heap.entry node = some (key, value)
  length : heap.length = c.heap.length
  fresh : node ∉ c.linkedList.header :: (refs ++ [c.linkedList.tail])
  valid : node < heap.length
  found : ∀ k n, c.map.tryGetValue k = some n ↔
    (k = key ∧ n = node) ∨ (n ∈ refs ∧ ∃ v, c.heap.entry n = some (k, v))
  count : c.map.count = refs.length + 1
  notMem : key ∉ l.map Prod.fst
  keys : (l.map Prod.fst).Nodup

/-- The dictionary finds one node under its key, and the others under theirs. -/
theorem Represents.found_split (h : Represents c refs l) {xs ys : List Ref} {node : Ref}
    (hrefs : refs = xs ++ node :: ys) {key value : Int}
    (hval : c.heap.entry node = some (key, value)) (k : Int) (n : Ref) :
    c.map.tryGetValue k = some n ↔
      (k = key ∧ n = node) ∨ (n ∈ xs ++ ys ∧ ∃ v, c.heap.entry n = some (k, v)) := by
  rw [h.found, hrefs]
  constructor
  · intro hn
    rcases hn with ⟨hn, v, hv⟩
    -- Each key belongs to one node.
    by_cases heq : n = node
    · rw [heq, hval] at hv
      exact Or.inl ⟨(Prod.mk.inj (Option.some.inj hv)).1.symm, heq⟩
    · refine Or.inr ⟨?_, v, hv⟩
      simp only [List.mem_append, List.mem_cons] at hn ⊢
      rcases hn with hn | hn | hn
      · exact Or.inl hn
      · exact absurd hn heq
      · exact Or.inr hn
  · intro hn
    rcases hn with hn | hn
    · rw [hn.1, hn.2]
      exact ⟨by simp, value, hval⟩
    · refine ⟨?_, hn.2⟩
      simp only [List.mem_append, List.mem_cons]
      rcases List.mem_append.mp hn.1 with hn | hn
      · exact Or.inl hn
      · exact Or.inr (Or.inr hn)

/-- The node of a key is taken out. -/
theorem Represents.removeNode (h : Represents c refs l) {key : Int} {node : Ref}
    (hfound : c.map.tryGetValue key = some node) :
    ∃ heap xs ys l₁ l₂ value, DoubleLinkedList.removeNode node c.heap = .ok heap ∧
      refs = xs ++ node :: ys ∧ l = l₁ ++ (key, value) :: l₂ ∧ l₂.length = ys.length ∧
      Detached c key value node heap (xs ++ ys) (l₁ ++ l₂) := by
  rcases (h.found key node).mp hfound with ⟨hnode, value, hval⟩
  rcases List.append_of_mem hnode with ⟨xs, ys, hrefs⟩
  have hentries := h.entries
  have hkeys := h.keys
  have hholds := h.holds
  -- The entries are split where the nodes are.
  rw [hrefs, List.map_append, List.map_cons, hval] at hentries
  rcases List.map_eq_append_iff.mp hentries.symm with ⟨l₁, l', hl, hl₁, hl'⟩
  rcases List.map_eq_cons_iff.mp hl' with ⟨e, l₂, hl', he, hl₂⟩
  rw [hl', Option.some.inj he] at hl
  rw [hl, List.map_append, List.map_cons, List.nodup_append, List.nodup_cons] at hkeys
  rw [hrefs] at hholds
  rcases DoubleLinkedList.removeNode_holds hholds with ⟨heap, hrun, hholds', hentry, hlen⟩
  have hfresh : node ∉ c.linkedList.header :: (xs ++ ys ++ [c.linkedList.tail]) := by
    have hnodup := hholds.nodup
    simp only [List.nodup_cons, List.nodup_append, List.mem_append, List.mem_cons] at hnodup ⊢
    grind
  have hnotMem : key ∉ (l₁ ++ l₂).map Prod.fst := by
    rw [List.map_append, List.mem_append]
    intro hmem
    rcases hmem with hmem | hmem
    · exact hkeys.2.2 key hmem key List.mem_cons_self rfl
    · exact hkeys.2.1.1 hmem
  have hentries' : (xs ++ ys).map c.heap.entry = (l₁ ++ l₂).map some := by
    rw [List.map_append, List.map_append, hl₁, hl₂]
  refine ⟨heap, xs, ys, l₁, l₂, value, hrun, hrefs, hl, ?_, ⟨hholds', ?_, hentry, hval, hlen,
    hfresh, ?_, ?_, ?_, hnotMem, ?_⟩⟩
  · have hlength := congrArg List.length hl₂
    rw [List.length_map, List.length_map] at hlength
    exact hlength
  · rw [hentry]
    exact hentries'
  · rw [hlen]
    exact hholds.valid node (by simp)
  · exact h.found_split hrefs hval
  · rw [h.count, hrefs]
    simp only [List.length_append, List.length_cons]
    omega
  · rw [List.map_append]
    refine List.nodup_append.mpr ⟨hkeys.1, hkeys.2.1.2, ?_⟩
    intro a ha b hb
    exact hkeys.2.2 a ha b (List.mem_cons_of_mem key hb)

/-- A node that is put to the front, and a dictionary that finds it and the
    others. -/
theorem Represents.push {heap : Heap Int Int} {refs : List Ref} {l : MruList Int Int}
    {node : Ref} {key value : Int} {map : Dictionary Int Ref}
    (hholds : c.linkedList.Holds heap refs) (hentries : refs.map heap.entry = l.map some)
    (hfresh : node ∉ c.linkedList.header :: (refs ++ [c.linkedList.tail]))
    (hvalid : node < heap.length) (hentry : heap.entry node = some (key, value))
    (hnotMem : key ∉ l.map Prod.fst) (hkeys : (l.map Prod.fst).Nodup)
    (hfound : ∀ k n, map.tryGetValue k = some n ↔
      (k = key ∧ n = node) ∨ (n ∈ refs ∧ ∃ v, heap.entry n = some (k, v)))
    (hcount : map.count = refs.length + 1) :
    ∃ heap', c.linkedList.addHeader node heap = .ok heap' ∧ heap'.entry = heap.entry ∧
      Represents { c with heap := heap', map } (node :: refs) ((key, value) :: l) := by
  -- `AddHeader` changes links only, so the entries are as before.
  rcases DoubleLinkedList.addHeader_holds hholds hfresh hvalid with
    ⟨heap', hrun, hholds', hsame, -⟩
  refine ⟨heap', hrun, hsame, ⟨hholds', ?_, ?_, hcount, List.nodup_cons.mpr ⟨hnotMem, hkeys⟩⟩⟩
  · change (node :: refs).map heap'.entry = _
    rw [hsame, List.map_cons, hentry, hentries]
    rfl
  · intro k n
    change map.tryGetValue k = some n ↔ _ ∧ ∃ v, heap'.entry n = some (k, v)
    rw [hfound, hsame, List.mem_cons]
    constructor
    · intro h
      rcases h with h | h
      · exact ⟨Or.inl h.2, value, by rw [h.1, h.2, hentry]⟩
      · exact ⟨Or.inr h.1, h.2⟩
    · intro h
      rcases h with ⟨h | h, v, hv⟩
      · rw [h, hentry] at hv
        exact Or.inl ⟨(Prod.mk.inj (Option.some.inj hv)).1.symm, h⟩
      · exact Or.inr ⟨h, v, hv⟩

/-- The node that was taken out is put to the front. -/
theorem Detached.addHeader {key value : Int} {node : Ref} {heap : Heap Int Int}
    (h : Detached c key value node heap refs l) :
    ∃ heap', c.linkedList.addHeader node heap = .ok heap' ∧
      heap'.entry node = some (key, value) ∧
      Represents { c with heap := heap' } (node :: refs) ((key, value) :: l) := by
  have hself : heap.entry node = some (key, value) := by
    rw [h.entry]
    exact h.self
  have hfound : ∀ k n, c.map.tryGetValue k = some n ↔
      (k = key ∧ n = node) ∨ (n ∈ refs ∧ ∃ v, heap.entry n = some (k, v)) := by
    rw [h.entry]
    exact h.found
  rcases Represents.push h.holds h.entries h.fresh h.valid hself h.notMem h.keys hfound h.count
    with ⟨heap', hrun, hsame, hrep⟩
  exact ⟨heap', hrun, by rw [hsame, hself], hrep⟩

/-- Under other keys the dictionary finds what is on the linked list. -/
theorem Detached.found_others {key value : Int} {node : Ref} {heap : Heap Int Int}
    (h : Detached c key value node heap refs l) (k : Int) (n : Ref) :
    k ≠ key ∧ c.map.tryGetValue k = some n ↔ n ∈ refs ∧ ∃ v, c.heap.entry n = some (k, v) := by
  rw [h.found]
  constructor
  · intro hn
    rcases hn with ⟨hk, hn | hn⟩
    · exact absurd hn.1 hk
    · exact hn
  · intro hn
    rcases hn with ⟨hn, v, hv⟩
    refine ⟨?_, Or.inr ⟨hn, v, hv⟩⟩
    -- No entry on the list has the key.
    intro hk
    have hmem : some (k, v) ∈ l.map some := by
      rw [← h.entries, h.entry]
      exact List.mem_map.mpr ⟨n, hn, hv⟩
    rcases List.mem_map.mp hmem with ⟨e, he, heq⟩
    refine h.notMem (List.mem_map.mpr ⟨e, he, ?_⟩)
    rw [Option.some.inj heq, hk]

/-- Another node is put to the front for the same key. -/
theorem Detached.replace {key value value' : Int} {node newNode : Ref} {heap : Heap Int Int}
    (h : Detached c key value node heap refs l)
    (hfresh : newNode ∉ c.linkedList.header :: (refs ++ [c.linkedList.tail]))
    (hvalid : newNode < c.heap.length) (hentry : c.heap.entry newNode = some (key, value')) :
    ∃ heap', c.linkedList.addHeader newNode heap = .ok heap' ∧
      Represents { c with heap := heap', map := c.map.set key newNode } (newNode :: refs)
        ((key, value') :: l) := by
  have hold : c.map.tryGetValue key = some node := (h.found key node).mpr (Or.inl ⟨rfl, rfl⟩)
  have hfound : ∀ k n, (c.map.set key newNode).tryGetValue k = some n ↔
      (k = key ∧ n = newNode) ∨ (n ∈ refs ∧ ∃ v, heap.entry n = some (k, v)) := by
    intro k n
    rw [Dictionary.tryGetValue_set, h.entry]
    exact or_congr_right (h.found_others k n)
  have hcount : (c.map.set key newNode).count = refs.length + 1 := by
    rw [Dictionary.count_set, hold, if_neg (Option.some_ne_none node)]
    exact h.count
  rcases Represents.push h.holds h.entries hfresh (h.length ▸ hvalid) (by rw [h.entry, hentry])
    h.notMem h.keys hfound hcount with ⟨heap', hrun, -, hrep⟩
  exact ⟨heap', hrun, hrep⟩

/-- The dictionary forgets the node that was taken out. -/
theorem Detached.remove {key value : Int} {node : Ref} {heap : Heap Int Int}
    (h : Detached c key value node heap refs l) :
    Represents { c with heap, map := c.map.remove key } refs l := by
  have hold : c.map.tryGetValue key = some node := (h.found key node).mpr (Or.inl ⟨rfl, rfl⟩)
  refine ⟨h.holds, h.entries, ?_, ?_, h.keys⟩
  · intro k n
    change (c.map.remove key).tryGetValue k = some n ↔ _ ∧ ∃ v, heap.entry n = some (k, v)
    rw [Dictionary.tryGetValue_remove, h.entry]
    exact h.found_others k n
  · have hcount := c.map.count_remove key ⟨node, hold⟩
    have hall := h.count
    change (c.map.remove key).count = refs.length
    omega

/-- A node is put to the front for a new key. -/
theorem Represents.addHeader (h : Represents c refs l) {key value : Int}
    (hkey : key ∉ l.map Prod.fst) {newNode : Ref}
    (hfresh : newNode ∉ c.linkedList.header :: (refs ++ [c.linkedList.tail]))
    (hvalid : newNode < c.heap.length) (hentry : c.heap.entry newNode = some (key, value)) :
    ∃ heap', c.linkedList.addHeader newNode c.heap = .ok heap' ∧
      Represents { c with heap := heap', map := c.map.set key newNode } (newNode :: refs)
        ((key, value) :: l) := by
  have hnone := h.found_none.mpr hkey
  have hfound : ∀ k n, (c.map.set key newNode).tryGetValue k = some n ↔
      (k = key ∧ n = newNode) ∨ (n ∈ refs ∧ ∃ v, c.heap.entry n = some (k, v)) := by
    intro k n
    rw [Dictionary.tryGetValue_set, h.found]
    refine or_congr_right ?_
    constructor
    · intro hn
      exact hn.2
    · intro hn
      rcases hn with ⟨hn, v, hv⟩
      exact ⟨h.entry_ne hkey hn hv, hn, v, hv⟩
  have hcount : (c.map.set key newNode).count = refs.length + 1 := by
    rw [Dictionary.count_set, hnone, if_pos rfl, h.count]
  rcases Represents.push h.holds h.entries hfresh hvalid hentry hkey h.keys hfound hcount with
    ⟨heap', hrun, -, hrep⟩
  exact ⟨heap', hrun, hrep⟩

/-- What `Get` does to the entries. -/
theorem get_represents (h : Represents c refs l) (key : Int) :
    ∃ c' refs', c.get key = .ok ((l.get key).1.getD (-1), c') ∧
      Represents c' refs' (l.get key).2 ∧ c'.capacity = c.capacity := by
  unfold get
  cases hfound : c.map.tryGetValue key with
  | none =>
      have hmiss : l.lookup key = none := by
        cases hl : l.lookup key with
        | none => rfl
        | some v => exact absurd (MruList.lookup_isSome_iff.mp ⟨v, hl⟩) (h.found_none.mp hfound)
      rw [MruList.get_miss hmiss]
      exact ⟨c, refs, rfl, h, rfl⟩
  | some node =>
      rcases h.removeNode hfound with ⟨heap, xs, ys, l₁, l₂, value, hrun, -, hl, -, hdetached⟩
      rcases hdetached.addHeader with ⟨heap', hrun', hentry, hrep⟩
      have hkeys := h.keys
      rw [hl] at hkeys
      rw [hl, MruList.get_hit (MruList.lookup_of_split hkeys), MruList.filter_split hkeys]
      refine ⟨{ c with heap := heap' }, node :: (xs ++ ys), ?_, hrep, rfl⟩
      simp only [hrun, hrun', hentry, bind, Except.bind]
      rfl

/-- The nodes of a cache are not a new one. -/
theorem Represents.fresh (h : Represents c refs l) :
    c.heap.length ∉ c.linkedList.header :: (refs ++ [c.linkedList.tail]) := by
  intro hmem
  exact Nat.lt_irrefl _ (h.holds.valid _ hmem)

/-- The last node is taken out and forgotten. -/
theorem Represents.removeLast (h : Represents c refs l) (hne : refs ≠ []) :
    ∃ node e heap refs', c.linkedList.getLastNode c.heap = some node ∧
      DoubleLinkedList.removeNode node c.heap = .ok heap ∧ heap.entry node = some e ∧
      heap.entry = c.heap.entry ∧ heap.length = c.heap.length ∧ (∀ r ∈ refs', r ∈ refs) ∧
      Represents { c with heap, map := c.map.remove e.1 } refs' l.dropLast := by
  rcases List.eq_nil_or_concat' refs with hnil | ⟨before, node, hrefs⟩
  · exact absurd hnil hne
  have hnode : node ∈ refs := by
    rw [hrefs]
    exact List.mem_append_right _ List.mem_cons_self
  have hlast : c.linkedList.getLastNode c.heap = some node := by
    have hholds := h.holds
    rw [hrefs] at hholds
    exact DoubleLinkedList.getLastNode_holds hholds
  rcases h.entry_mem hnode with ⟨e, he, hval⟩
  rcases h.removeNode ((h.found e.1 node).mpr ⟨hnode, e.2, hval⟩) with
    ⟨heap, xs, ys, l₁, l₂, value, hrun, hsplit, hl, hlen, hdetached⟩
  -- Nothing comes after the last node.
  have hys : ys = [] := by
    rcases List.eq_nil_or_concat' ys with hnil | ⟨zs, z, hzs⟩
    · exact hnil
    · have hz := congrArg List.getLast? (hrefs.symm.trans hsplit)
      rw [hzs] at hz
      rw [← List.cons_append, ← List.append_assoc, List.getLast?_concat,
        List.getLast?_concat] at hz
      have hz : node = z := Option.some.inj hz
      refine absurd ?_ hdetached.fresh
      simp [hzs, hz]
  have hl₂ : l₂ = [] := List.length_eq_zero_iff.mp (by rw [hlen, hys]; rfl)
  have hdrop : l.dropLast = l₁ ++ l₂ := by
    rw [hl, hl₂, List.dropLast_concat, List.append_nil]
  refine ⟨node, e, heap, xs ++ ys, hlast, hrun, ?_, hdetached.entry, hdetached.length, ?_, ?_⟩
  · rw [hdetached.entry]
    exact hval
  · intro r hr
    rw [hsplit]
    simp only [List.mem_append, List.mem_cons] at hr ⊢
    tauto
  · rw [hdrop]
    exact hdetached.remove

/-- The node that `Put` creates is on the heap from then on. -/
theorem length_lt_alloc (c : LRUCache) (key value : Int) :
    c.heap.length < (c.heap.alloc ⟨value, key, none, none⟩).length := by
  rw [Heap.length_alloc]
  exact Nat.lt_succ_self _

/-- `Put` of a key that is there takes its node out and puts the new one to
    the front. -/
theorem put_found (h : Represents c refs l) {key : Int} (value : Int) {node : Ref}
    (hfound : c.map.tryGetValue key = some node) :
    ∃ c' refs', c.put key value = .ok c' ∧
      Represents c' refs' (l.put c.capacity.toNat key value) ∧ c'.capacity = c.capacity := by
  -- The new node is created first.
  rcases (h.alloc key value).removeNode hfound with
    ⟨heap, xs, ys, l₁, l₂, value', hrun, hrefs, hl, -, hdetached⟩
  have hfresh : c.heap.length ∉ c.linkedList.header :: (xs ++ ys ++ [c.linkedList.tail]) := by
    intro hmem
    refine h.fresh ?_
    rw [hrefs]
    simp only [List.mem_cons, List.mem_append] at hmem ⊢
    tauto
  rcases hdetached.replace hfresh (length_lt_alloc c key value)
    (Heap.entry_new_self c.heap ⟨value, key, none, none⟩) with ⟨heap', hrun', hrep⟩
  have hkeys := h.keys
  have hmem : key ∈ l.map Prod.fst := by
    rw [hl]
    simp
  rw [hl] at hkeys
  rw [MruList.put_hit hmem, hl, MruList.filter_split hkeys]
  refine ⟨{ c with heap := heap', map := c.map.set key c.heap.length },
    c.heap.length :: (xs ++ ys), ?_, hrep, rfl⟩
  simp only [put, hfound, hrun, hrun', bind, Except.bind]
  rfl

/-- `Put` of a new key into a full cache drops the last node. -/
theorem put_full (h : Represents c refs l) (hcap : 1 ≤ c.capacity) {key : Int} (value : Int)
    (hfound : c.map.tryGetValue key = none) (hfull : (c.map.count : Int) = c.capacity) :
    ∃ c' refs', c.put key value = .ok c' ∧
      Represents c' refs' (l.put c.capacity.toNat key value) ∧ c'.capacity = c.capacity := by
  have hkey : key ∉ l.map Prod.fst := h.found_none.mp hfound
  have hlen : l.length = c.capacity.toNat := by
    rw [← h.length, ← h.count]
    omega
  -- The capacity is not 0, so there is a node to be taken off.
  have hne : refs ≠ [] := by
    intro hnil
    rw [h.count, hnil] at hfull
    exact absurd hfull (by simp; omega)
  -- The last node goes, from the list and from the dictionary.
  rcases (h.alloc key value).removeLast hne with
    ⟨node, e, heap, refs', hlast, hrun, hval, hsame, hlength, hsub, hrep⟩
  have hkey' : key ∉ l.dropLast.map Prod.fst := by
    intro hmem
    exact hkey (((List.dropLast_sublist l).map Prod.fst).subset hmem)
  -- The new node is not one of those that are linked.
  have hfresh : c.heap.length ∉ c.linkedList.header :: (refs' ++ [c.linkedList.tail]) := by
    intro hmem
    refine h.fresh ?_
    simp only [List.mem_cons, List.mem_append] at hmem ⊢
    rcases hmem with hmem | hmem | hmem
    · exact Or.inl hmem
    · exact Or.inr (Or.inl (hsub _ hmem))
    · exact Or.inr (Or.inr hmem)
  have hentry : heap.entry c.heap.length = some (key, value) := by
    rw [hsame]
    exact Heap.entry_new_self c.heap ⟨value, key, none, none⟩
  rcases hrep.addHeader hkey' hfresh (hlength ▸ length_lt_alloc c key value) hentry with
    ⟨heap', hrun', hrep'⟩
  rw [MruList.put_full hkey hlen]
  refine ⟨_, c.heap.length :: refs', ?_, hrep', rfl⟩
  have hroom : c.makeRoom (c.heap.alloc ⟨value, key, none, none⟩)
      = .ok (heap, c.map.remove e.1) := by
    unfold makeRoom
    rw [if_pos hfull]
    simp only [hlast, hrun, hval, DoubleLinkedList.nonNull, bind, Except.bind, pure, Except.pure]
  simp only [put, hfound, hroom, hrun', bind, Except.bind]
  rfl

/-- `Put` of a new key when there is room drops nothing. -/
theorem put_room (h : Represents c refs l) (hcap : 1 ≤ c.capacity) {key : Int} (value : Int)
    (hfound : c.map.tryGetValue key = none) (hfull : (c.map.count : Int) ≠ c.capacity) :
    ∃ c' refs', c.put key value = .ok c' ∧
      Represents c' refs' (l.put c.capacity.toNat key value) ∧ c'.capacity = c.capacity := by
  have hkey : key ∉ l.map Prod.fst := h.found_none.mp hfound
  have hlen : l.length ≠ c.capacity.toNat := by
    rw [← h.length, ← h.count]
    omega
  rcases (h.alloc key value).addHeader hkey h.fresh (length_lt_alloc c key value)
    (Heap.entry_new_self c.heap ⟨value, key, none, none⟩) with ⟨heap', hrun, hrep⟩
  rw [MruList.put_room hkey hlen]
  refine ⟨{ c with heap := heap', map := c.map.set key c.heap.length },
    c.heap.length :: refs, ?_, hrep, rfl⟩
  have hroom : c.makeRoom (c.heap.alloc ⟨value, key, none, none⟩)
      = .ok (c.heap.alloc ⟨value, key, none, none⟩, c.map) := by
    unfold makeRoom
    rw [if_neg hfull]
    rfl
  simp only [put, hfound, hroom, hrun, bind, Except.bind]
  rfl

/-- What `Put` does to the entries. -/
theorem put_represents (h : Represents c refs l) (hcap : 1 ≤ c.capacity) (key value : Int) :
    ∃ c' refs', c.put key value = .ok c' ∧
      Represents c' refs' (l.put c.capacity.toNat key value) ∧ c'.capacity = c.capacity := by
  cases hfound : c.map.tryGetValue key with
  | some node => exact put_found h value hfound
  | none =>
      by_cases hfull : (c.map.count : Int) = c.capacity
      · exact put_full h hcap value hfound hfull
      · exact put_room h hcap value hfound hfull

/-- What a call returns, and what it does to the entries. -/
theorem call_represents (h : Represents c refs l) (hcap : 1 ≤ c.capacity) (op : Op Int Int) :
    ∃ c' refs', c.call op = .ok (reply op (l.step c.capacity.toNat op).1, c') ∧
      Represents c' refs' (l.step c.capacity.toNat op).2 ∧ c'.capacity = c.capacity := by
  cases op with
  | get key =>
      rcases get_represents h key with ⟨c', refs', hrun, hrep, hcap'⟩
      refine ⟨c', refs', ?_, hrep, hcap'⟩
      change (do
        let r ← c.get key
        pure (some r.1, r.2)) = _
      rw [hrun]
      rfl
  | put key value =>
      rcases put_represents h hcap key value with ⟨c', refs', hrun, hrep, hcap'⟩
      refine ⟨c', refs', ?_, hrep, hcap'⟩
      change (do
        let c ← c.put key value
        pure (none, c)) = _
      rw [hrun]
      rfl

/-- What some calls return, and what they do to the entries. -/
theorem run_represents (ops : List (Op Int Int)) : ∀ {c : LRUCache} {refs : List Ref}
    {l : MruList Int Int}, Represents c refs l → 1 ≤ c.capacity →
    ∃ c' refs', run ops c = .ok
        (List.zipWith reply ops (l.run c.capacity.toNat ops).1, c') ∧
      Represents c' refs' (l.run c.capacity.toNat ops).2 := by
  induction ops with
  | nil =>
      intro c refs l h _
      exact ⟨c, refs, rfl, h⟩
  | cons op ops ih =>
      intro c refs l h hcap
      rcases call_represents h hcap op with ⟨c', refs', hcall, hrep, hcap'⟩
      rcases ih hrep (by rw [hcap']; exact hcap) with ⟨c'', refs'', hrun, hrep'⟩
      rw [hcap'] at hrun hrep'
      refine ⟨c'', refs'', ?_, hrep'⟩
      unfold run
      simp only [hcall, hrun, bind, Except.bind]
      rfl

/-- A cache returns what a list of entries returns, the most recently used
    first. The list has room for as many entries as the cache, they have the
    values last put, and they are in the order of their last uses. -/
theorem lru_refines (capacity : Int) (hcap : 1 ≤ capacity) (ops : List (Op Int Int)) :
    ∃ found l c, MruList.run capacity.toNat ops [] = (found, l) ∧
      run ops (new capacity) = .ok (List.zipWith reply ops found, c) ∧
      l.length ≤ capacity ∧ (∀ e ∈ l, LastPut ops e.1 e.2) ∧
      l.Pairwise (fun a b => UsedAfter ops a.1 b.1) := by
  rcases run_represents ops (new_represents capacity) hcap with ⟨c, refs, hrun, -⟩
  have hrecent : Recent capacity.toNat ops (MruList.run capacity.toNat ops []).2 :=
    Recent.run (by omega) ops (Recent.nil capacity.toNat [])
  refine ⟨_, _, c, rfl, hrun, ?_, hrecent.values, hrecent.order⟩
  have hroom := hrecent.room
  omega

/-- `Put(1)`, `Put(2)`, `Get(1)`, `Put(3)`, `Get(2)` and `Get(1)`. -/
def evicting : List (Op Int Int) :=
  [.put 1 1, .put 2 2, .get 1, .put 3 3, .get 2, .get 1]

/-- With room for two entries, `Get(1)` saves the first one, and `Put(3)`
    drops the second. -/
theorem lru_refines_evicts : ∃ c,
    run evicting (new 2) = .ok ([none, none, some 1, none, some (-1), some 1], c) := by
  rcases lru_refines 2 (by omega) evicting with ⟨found, l, c, hfound, hrun, -⟩
  have hlist : found = [none, none, some 1, none, none, some 1] :=
    (congrArg Prod.fst hfound).symm
  refine ⟨c, ?_⟩
  rw [hrun, hlist]
  rfl

end LRUCache

end LruAlgorithm

end BlogSample
