import BlogSample.LruAlgorithm.Refinement

/-!
# The Pointers of the Cache

What the nodes of a cache point to, after any calls. The references of the
linked list are all there are: a node that was replaced or evicted has null
references, no node refers to it, and the dictionary does not find it.

Nodes are created one after the other and never collected, so a node that has
left the list is an old one, and it stays outside: what comes into the list is
new or has been in it.

## Main definitions

* `Tidy`: The references are those of the list.
* `Leads`: Following references from a node to another one.
* `WellLinked`: The list in both directions, and the dictionary.
* `Dropped`: A call replaces or evicts a node.
* `Unreferenced`: Nothing refers to a node, and it refers to nothing.

## Theorems

* `Tidy.addHeader`, `Tidy.removeNode`: The methods of the list.
* `get_eq_ok`, `put_eq_ok`: What a call that returned has done.
* `Sound.call`, `Sound.run`: What a call and a run keep.
* `lru_wellLinked`: The list and what has left it, after any calls.
-/

namespace BlogSample

namespace LruAlgorithm

open DotNet

namespace DoubleLinkedList

variable {κ υ : Type} {l : DoubleLinkedList} {h h' : Heap κ υ} {refs : List Ref} {node : Ref}

/-- The list consists of the given nodes, and there are no references but its own. -/
structure Tidy (l : DoubleLinkedList) (h : Heap κ υ) (refs : List Ref) : Prop where
  holds : l.Holds h refs
  exact : h.links.Exact (l.header :: (refs ++ [l.tail]))

/-- A list consists of one sequence of nodes. -/
theorem Holds.unique {refs' : List Ref} (hl : l.Holds h refs) (hl' : l.Holds h refs') :
    refs = refs' := by
  have hnot {refs : List Ref} (hl : l.Holds h refs) : l.tail ∉ refs := by
    intro hmem
    have hnodup := (List.nodup_cons.mp hl.nodup).2
    exact (List.nodup_append.mp hnodup).2.2 _ hmem _ List.mem_cons_self rfl
  exact hl.chained.unique hl'.chained (hnot hl) (hnot hl')

/-- A new list has two references, between its sentinels. -/
theorem new_tidy [Inhabited κ] [Inhabited υ] :
    (new ([] : Heap κ υ)).1.Tidy (new ([] : Heap κ υ)).2 [] where
  holds := new_holds
  exact := by
    refine ⟨new_holds.chained, ?_, ?_, ?_⟩
    · rintro a ⟨⟩
      rfl
    · rintro a ⟨⟩
      rfl
    · intro (a : Nat) ha
      have ha : a ∉ [0, 1] := ha
      rw [List.mem_cons, List.mem_singleton, not_or] at ha
      -- There are no nodes but the two.
      have hnone : (new ([] : Heap κ υ)).2[a]? = none := by
        refine List.getElem?_eq_none ?_
        change 2 ≤ a
        omega
      constructor
      · change ((new ([] : Heap κ υ)).2[a]?).bind Node.prev = none
        rw [hnone]
        rfl
      · change ((new ([] : Heap κ υ)).2[a]?).bind Node.next = none
        rw [hnone]
        rfl

/-- Another node may be created. -/
theorem Tidy.alloc (ht : l.Tidy h refs) (k : κ) (v : υ) :
    l.Tidy (h.alloc ⟨v, k, none, none⟩) refs where
  holds := ht.holds.new_node k v
  exact := by
    rw [Heap.links_new]
    exact ht.exact

/-- A node is added at the front. -/
theorem Tidy.addHeader (ht : l.Tidy h refs) (hnode : node ∉ l.header :: (refs ++ [l.tail]))
    (hlt : node < h.length) (hadd : l.addHeader node h = .ok h') :
    l.Tidy h' (node :: refs) ∧ h'.entry = h.entry ∧ h'.length = h.length := by
  rcases ht.holds.addHeader hnode hlt with
    ⟨first, rest, heap, hsplit, hnodup, hrun, hlinks, hentry, hlen⟩
  rcases addHeader_holds ht.holds hnode hlt with ⟨heap', hrun', hholds, -⟩
  rw [hadd, Except.ok.injEq] at hrun hrun'
  subst hrun hrun'
  refine ⟨⟨hholds, ?_⟩, hentry, hlen⟩
  have hexact := ht.exact
  rw [hsplit] at hexact
  have hexact : h.links.Exact ([] ++ l.header :: first :: rest) := hexact
  rw [hlinks, List.cons_append, hsplit]
  exact hexact.link hnodup

/-- A node is taken out. -/
theorem Tidy.removeNode {xs ys : List Ref} (ht : l.Tidy h (xs ++ node :: ys))
    (hremove : removeNode node h = .ok h') :
    l.Tidy h' (xs ++ ys) ∧ h'.entry = h.entry ∧ h'.length = h.length := by
  rcases ht.holds.removeNode with
    ⟨before, a, b, rest, heap, hwith, hwithout, hrun, hlinks, hentry, hlen⟩
  rcases removeNode_holds ht.holds with ⟨heap', hrun', hholds, -⟩
  rw [hremove, Except.ok.injEq] at hrun hrun'
  subst hrun hrun'
  refine ⟨⟨hholds, ?_⟩, hentry, hlen⟩
  have hexact := ht.exact
  have hnodup := ht.holds.nodup
  rw [hwith] at hexact hnodup
  rw [hlinks, hwithout]
  exact hexact.unlink hnodup

end DoubleLinkedList

namespace LRUCache

open DoubleLinkedList

variable {c c' : LRUCache} {refs refs' : List Ref} {l : MruList Int Int}

/-! ### What a call has done -/

theorem get_eq_ok {key value : Int} (h : c.get key = .ok (value, c')) :
    (c.map.tryGetValue key = none ∧ c' = c) ∨
      ∃ node heap heap', c.map.tryGetValue key = some node ∧
        DoubleLinkedList.removeNode node c.heap = .ok heap ∧
        c.linkedList.addHeader node heap = .ok heap' ∧ c' = { c with heap := heap' } := by
  unfold get at h
  cases hfound : c.map.tryGetValue key with
  | none =>
      rw [hfound] at h
      cases h
      exact .inl ⟨rfl, rfl⟩
  | some node =>
      simp only [hfound] at h
      rcases bind_eq_ok h with ⟨heap, hremove, h⟩
      rcases bind_eq_ok h with ⟨heap', hadd, h⟩
      refine .inr ⟨node, heap, heap', rfl, hremove, hadd, ?_⟩
      cases hentry : heap'.entry node with
      | none =>
          simp only [hentry] at h
          cases h
      | some e =>
          simp only [hentry] at h
          cases h
          rfl

/-- A node is taken out if the key is there or there is no room. -/
theorem put_eq_ok {key value : Int} (h : c.put key value = .ok c') :
    ∃ heap heap' map,
      (heap = c.heap.alloc ⟨value, key, none, none⟩ ∨
        ∃ node, (c.map.tryGetValue key = some node ∨ ((c.map.count : Int) = c.capacity ∧
            c.linkedList.getLastNode (c.heap.alloc ⟨value, key, none, none⟩) = some node)) ∧
          DoubleLinkedList.removeNode node (c.heap.alloc ⟨value, key, none, none⟩) = .ok heap) ∧
      c.linkedList.addHeader c.heap.length heap = .ok heap' ∧
      c' = { c with heap := heap', map := map } := by
  unfold put at h
  cases hfound : c.map.tryGetValue key with
  | some node =>
      simp only [hfound] at h
      rcases bind_eq_ok h with ⟨heap, hremove, h⟩
      rcases bind_eq_ok h with ⟨heap', hadd, h⟩
      cases h
      exact ⟨heap, heap', _, .inr ⟨node, .inl rfl, hremove⟩, hadd, rfl⟩
  | none =>
      simp only [hfound] at h
      rcases bind_eq_ok h with ⟨⟨heap, map⟩, hroom, h⟩
      rcases bind_eq_ok h with ⟨heap', hadd, h⟩
      cases h
      refine ⟨heap, heap', _, ?_, hadd, rfl⟩
      unfold makeRoom at hroom
      by_cases hfull : (c.map.count : Int) = c.capacity
      · rw [if_pos hfull] at hroom
        rcases bind_eq_ok hroom with ⟨node, hlast, hroom⟩
        rcases bind_eq_ok hroom with ⟨heap₁, hremove, hroom⟩
        -- The node before the tail is not null.
        cases hnode : c.linkedList.getLastNode (c.heap.alloc ⟨value, key, none, none⟩) with
        | none =>
            rw [hnode] at hlast
            cases hlast
        | some node' =>
            rw [hnode] at hlast
            cases hlast
            cases hentry : heap₁.entry node with
            | none =>
                simp only [hentry] at hroom
                cases hroom
            | some e =>
                simp only [hentry] at hroom
                cases hroom
                exact .inr ⟨node, .inr ⟨hfull, rfl⟩, hremove⟩
      · rw [if_neg hfull] at hroom
        cases hroom
        exact .inl rfl

/-! ### What a call keeps -/

/-- A cache some calls later: nodes have been created, the old ones carry what they carried, and
    what has come into the list is new. -/
structure Later (c : LRUCache) (refs : List Ref) (c' : LRUCache) (refs' : List Ref) : Prop where
  linkedList : c'.linkedList = c.linkedList
  capacity : c'.capacity = c.capacity
  length : c.heap.length ≤ c'.heap.length
  entry : ∀ r < c.heap.length, c'.heap.entry r = c.heap.entry r
  refs : ∀ r ∈ refs', r ∈ refs ∨ c.heap.length ≤ r

theorem Later.refl (c : LRUCache) (refs : List Ref) : Later c refs c refs :=
  ⟨rfl, rfl, Nat.le_refl _, fun _ _ => rfl, fun _ hr => .inl hr⟩

theorem Later.trans {c'' : LRUCache} {refs'' : List Ref} (h : Later c refs c' refs')
    (h' : Later c' refs' c'' refs'') : Later c refs c'' refs'' where
  linkedList := h'.linkedList.trans h.linkedList
  capacity := h'.capacity.trans h.capacity
  length := h.length.trans h'.length
  entry := fun r hr => (h'.entry r (hr.trans_le h.length)).trans (h.entry r hr)
  refs := fun r hr => by
    rcases h'.refs r hr with hr | hr
    · exact h.refs r hr
    · exact .inr (h.length.trans hr)

/-- A node that has left the list does not come back. -/
theorem Later.notMem (h : Later c refs c' refs') {node : Ref} (hlt : node < c.heap.length)
    (hnode : node ∉ c.linkedList.header :: (refs ++ [c.linkedList.tail])) :
    node ∉ c'.linkedList.header :: (refs' ++ [c'.linkedList.tail]) := by
  rw [h.linkedList]
  simp only [List.mem_cons, List.mem_append, List.not_mem_nil, or_false, not_or] at hnode ⊢
  refine ⟨hnode.1, fun hmem => ?_, hnode.2.2⟩
  rcases h.refs node hmem with hold | hnew
  · exact hnode.2.1 hold
  · exact absurd hlt (Nat.not_lt.mpr hnew)

theorem tidy_get (hrep : Represents c refs l) (ht : c.linkedList.Tidy c.heap refs)
    {key value : Int} (h : c.get key = .ok (value, c')) :
    ∃ refs', c'.linkedList.Tidy c'.heap refs' ∧ Later c refs c' refs' := by
  rcases get_eq_ok h with ⟨-, rfl⟩ | ⟨node, heap, heap', hfound, hremove, hadd, rfl⟩
  · exact ⟨refs, ht, .refl _ refs⟩
  · rcases List.append_of_mem ((hrep.found key node).mp hfound).1 with ⟨xs, ys, rfl⟩
    rcases ht.removeNode hremove with ⟨ht', hentry, hlen⟩
    have hfresh : node ∉ c.linkedList.header :: (xs ++ ys ++ [c.linkedList.tail]) := by
      have hnodup := ht.holds.nodup
      simp only [List.nodup_cons, List.nodup_append, List.mem_append, List.mem_cons] at hnodup ⊢
      grind
    have hlt : node < heap.length := by
      rw [hlen]
      exact ht.holds.valid node (by simp)
    rcases ht'.addHeader hfresh hlt hadd with ⟨ht'', hentry', hlen'⟩
    refine ⟨node :: (xs ++ ys), ht'', rfl, rfl, ?_, fun r _ => ?_, fun r hr => .inl ?_⟩
    · exact Nat.le_of_eq (hlen'.trans hlen).symm
    · change heap'.entry r = c.heap.entry r
      rw [hentry', hentry]
    · simp only [List.mem_append, List.mem_cons] at hr ⊢
      tauto

theorem tidy_put (hrep : Represents c refs l) (ht : c.linkedList.Tidy c.heap refs)
    (hcap : 1 ≤ c.capacity) {key value : Int} (h : c.put key value = .ok c') :
    ∃ refs', c'.linkedList.Tidy c'.heap refs' ∧ Later c refs c' refs' := by
  rcases put_eq_ok h with ⟨heap, heap', map, hheap, hadd, rfl⟩
  have ht₀ := ht.alloc key value
  -- Whatever is taken out is a node of the list.
  have hleft : ∃ refs₁, c.linkedList.Tidy heap refs₁ ∧ (∀ r ∈ refs₁, r ∈ refs) ∧
      heap.entry = (c.heap.alloc ⟨value, key, none, none⟩).entry ∧
      heap.length = (c.heap.alloc ⟨value, key, none, none⟩).length := by
    rcases hheap with rfl | ⟨node, hnode, hremove⟩
    · exact ⟨refs, ht₀, fun _ hr => hr, rfl, rfl⟩
    · have hmem : node ∈ refs := by
        rcases hnode with hfound | ⟨hfull, hlast⟩
        · exact ((hrep.found key node).mp hfound).1
        · rcases List.eq_nil_or_concat' refs with rfl | ⟨before, last, rfl⟩
          · rw [hrep.count] at hfull
            exact absurd hfull (by simp; omega)
          · rw [getLastNode_holds ht₀.holds, Option.some.injEq] at hlast
            rw [← hlast]
            exact List.mem_append_right _ List.mem_cons_self
      rcases List.append_of_mem hmem with ⟨xs, ys, rfl⟩
      rcases ht₀.removeNode hremove with ⟨ht₁, hentry, hlen⟩
      refine ⟨xs ++ ys, ht₁, fun r hr => ?_, hentry, hlen⟩
      simp only [List.mem_append, List.mem_cons] at hr ⊢
      tauto
  rcases hleft with ⟨refs₁, ht₁, hsub, hentry, hlen⟩
  have hfresh : c.heap.length ∉ c.linkedList.header :: (refs₁ ++ [c.linkedList.tail]) := by
    intro hmem
    refine hrep.fresh ?_
    simp only [List.mem_append, List.mem_cons] at hmem ⊢
    rcases hmem with hmem | hmem | hmem
    · exact .inl hmem
    · exact .inr (.inl (hsub _ hmem))
    · exact .inr (.inr hmem)
  have hlt := length_lt_alloc c key value
  rcases ht₁.addHeader hfresh (hlen ▸ hlt) hadd with ⟨ht₂, hentry', hlen'⟩
  refine ⟨c.heap.length :: refs₁, ht₂, rfl, rfl, ?_, fun r hr => ?_, fun r hr => ?_⟩
  · change c.heap.length ≤ heap'.length
    rw [hlen', hlen]
    exact hlt.le
  · change heap'.entry r = c.heap.entry r
    rw [hentry', hentry]
    exact Heap.entry_new_of_lt hr _
  · rcases List.mem_cons.mp hr with rfl | hr
    · exact .inr (Nat.le_refl _)
    · exact .inl (hsub r hr)

/-- The nodes carry entries that the dictionary finds, and there are no other references. -/
structure Sound (c : LRUCache) (refs : List Ref) : Prop where
  represents : ∃ l, Represents c refs l
  tidy : c.linkedList.Tidy c.heap refs

theorem sound_new (capacity : Int) : Sound (new capacity) [] :=
  ⟨⟨[], new_represents capacity⟩, new_tidy⟩

theorem Sound.call (h : Sound c refs) (hcap : 1 ≤ c.capacity) (op : Op Int Int) :
    ∃ reply c' refs', c.call op = .ok (reply, c') ∧ Sound c' refs' ∧ Later c refs c' refs' := by
  rcases h.represents with ⟨l, hrep⟩
  rcases call_represents hrep hcap op with ⟨c', refs', hcall, hrep', -⟩
  have htidy : ∃ refs'', c'.linkedList.Tidy c'.heap refs'' ∧ Later c refs c' refs'' := by
    cases op with
    | get key =>
        rcases bind_eq_ok hcall with ⟨⟨value, c₁⟩, hget, heq⟩
        cases heq
        exact tidy_get hrep h.tidy hget
    | put key value =>
        rcases bind_eq_ok hcall with ⟨c₁, hput, heq⟩
        cases heq
        exact tidy_put hrep h.tidy hcap hput
  -- Both say which nodes there are.
  rcases htidy with ⟨refs'', htidy, hlater⟩
  have hsame := htidy.holds.unique hrep'.holds
  subst hsame
  exact ⟨_, c', refs'', hcall, ⟨⟨_, hrep'⟩, htidy⟩, hlater⟩

theorem Sound.run (ops : List (Op Int Int)) (h : Sound c refs) (hcap : 1 ≤ c.capacity) :
    ∃ replies c' refs', run ops c = .ok (replies, c') ∧ Sound c' refs' ∧
      Later c refs c' refs' := by
  induction ops generalizing c refs with
  | nil => exact ⟨[], c, refs, rfl, h, .refl c refs⟩
  | cons op ops ih =>
      rcases h.call hcap op with ⟨reply, c₁, refs₁, hcall, hsound, hlater⟩
      rcases ih hsound (by rw [hlater.capacity]; exact hcap) with
        ⟨replies, c', refs', hrun, hsound', hlater'⟩
      refine ⟨reply :: replies, c', refs', ?_, hsound', hlater.trans hlater'⟩
      rw [LRUCache.run, hcall]
      change (LRUCache.run ops c₁ >>= _) = _
      rw [hrun]
      rfl

/-- A run, and another one that goes on from there. -/
theorem run_append {ops : List (Op Int Int)} (ops' : List (Op Int Int)) {c₁ : LRUCache}
    {replies : List (Option Int)} (h : LRUCache.run ops c = .ok (replies, c₁)) :
    LRUCache.run (ops ++ ops') c =
      (LRUCache.run ops' c₁ >>= fun s => pure (replies ++ s.1, s.2)) := by
  induction ops generalizing c replies with
  | nil =>
      cases h
      exact (bind_pure _).symm
  | cons op ops ih =>
      rcases bind_eq_ok h with ⟨⟨reply, c₂⟩, hcall, h⟩
      rcases bind_eq_ok h with ⟨⟨replies', c₃⟩, hrun, h⟩
      cases h
      rw [List.cons_append, LRUCache.run, hcall]
      change (LRUCache.run (ops ++ ops') c₂ >>= _) = _
      rw [ih hrun]
      simp only [bind_assoc, pure_bind, List.cons_append]

/-! ### After any calls -/

/-- Following references from a node leads through some nodes to another one. -/
def Leads (f : Ref → Option Ref) (a : Ref) (nodes : List Ref) (b : Ref) : Prop :=
  (a :: (nodes ++ [b])).IsChain (fun x y => f x = some y)

/-- `Next` leads from `_header` through some nodes to `_tail`, and `Prev` through the same ones
    back. They are those that the dictionary finds, and it finds each under its own key. -/
structure WellLinked (c : LRUCache) (nodes : List Ref) : Prop where
  forth : Leads c.heap.next c.linkedList.header nodes c.linkedList.tail
  back : Leads c.heap.prev c.linkedList.tail nodes.reverse c.linkedList.header
  nodup : (c.linkedList.header :: (nodes ++ [c.linkedList.tail])).Nodup
  stored : ∀ node, node ∈ nodes ↔ ∃ key, c.map.tryGetValue key = some node
  key : ∀ key node, c.map.tryGetValue key = some node →
    ∃ value, c.heap.entry node = some (key, value)

/-- One of the calls of a run replaces or evicts a node: the dictionary finds it under a key before
    the call, and not after it. -/
def Dropped (capacity : Int) (ops : List (Op Int Int)) (node : Ref) : Prop :=
  ∃ ops₁ op ops₂ replies c reply c' key, ops = ops₁ ++ op :: ops₂ ∧
    run ops₁ (new capacity) = .ok (replies, c) ∧ c.call op = .ok (reply, c') ∧
    c.map.tryGetValue key = some node ∧ c'.map.tryGetValue key ≠ some node

/-- A node has null references, no node refers to it, and the dictionary does not find it. -/
structure Unreferenced (c : LRUCache) (node : Ref) : Prop where
  next : c.heap.next node = none
  prev : c.heap.prev node = none
  links : ∀ other, c.heap.next other ≠ some node ∧ c.heap.prev other ≠ some node
  map : ∀ key, c.map.tryGetValue key ≠ some node

theorem Sound.wellLinked (h : Sound c refs) : WellLinked c refs := by
  rcases h.represents with ⟨l, hrep⟩
  refine ⟨?_, ?_, h.tidy.holds.nodup, fun node => ⟨fun hnode => ?_, ?_⟩, fun key node hfound => ?_⟩
  · exact h.tidy.holds.chained.imp (fun _ _ hlink => hlink.1)
  · have hback := h.tidy.holds.chained.imp (fun _ _ hlink => hlink.2)
    rw [← List.isChain_reverse, List.reverse_cons, List.reverse_append] at hback
    exact hback
  · rcases hrep.entry_mem hnode with ⟨e, -, hval⟩
    exact ⟨e.1, (hrep.found e.1 node).mpr ⟨hnode, e.2, hval⟩⟩
  · rintro ⟨key, hfound⟩
    exact ((hrep.found key node).mp hfound).1
  · exact ((hrep.found key node).mp hfound).2

/-- Nothing refers to a node outside the list. -/
theorem Sound.unreferenced (h : Sound c refs) {node : Ref}
    (hnode : node ∉ c.linkedList.header :: (refs ++ [c.linkedList.tail])) :
    Unreferenced c node := by
  rcases h.represents with ⟨l, hrep⟩
  have hnone := h.tidy.exact.outside node hnode
  refine ⟨hnone.2, hnone.1, h.tidy.exact.not_referenced hnode, fun key hfound => hnode ?_⟩
  refine List.mem_cons_of_mem _ (List.mem_append_left _ ?_)
  exact ((hrep.found key node).mp hfound).1

/-- A node that the dictionary finds under a key no longer has left the list. -/
theorem Sound.notMem (h : Sound c refs) (h' : Sound c' refs') (hlater : Later c refs c' refs')
    {key : Int} {node : Ref} (hfound : c.map.tryGetValue key = some node)
    (hlost : c'.map.tryGetValue key ≠ some node) :
    node < c'.heap.length ∧ node ∉ c'.linkedList.header :: (refs' ++ [c'.linkedList.tail]) := by
  rcases h.represents with ⟨l, hrep⟩
  rcases h'.represents with ⟨l', hrep'⟩
  rcases (hrep.found key node).mp hfound with ⟨hmem, value, hval⟩
  have hchain : node ∈ c.linkedList.header :: (refs ++ [c.linkedList.tail]) :=
    List.mem_cons_of_mem _ (List.mem_append_left _ hmem)
  have hlt : node < c.heap.length := h.tidy.holds.valid node hchain
  have hnodup := h.tidy.holds.nodup
  refine ⟨hlt.trans_le hlater.length, ?_⟩
  rw [hlater.linkedList]
  simp only [List.nodup_cons, List.nodup_append, List.mem_append, List.mem_cons,
    List.not_mem_nil, or_false, not_or] at hnodup ⊢
  refine ⟨fun heq => hnodup.1.1 (heq ▸ hmem), fun hmem' => hlost ?_,
    fun heq => hnodup.2.2.2 node hmem _ rfl heq⟩
  -- It still carries the key, so the dictionary would find it.
  refine (hrep'.found key node).mpr ⟨hmem', value, ?_⟩
  rw [hlater.entry node hlt]
  exact hval

/-- After any calls, the linked list consists of the nodes that the dictionary finds, in both
    directions, and nothing refers to a node that has been replaced or evicted. -/
theorem lru_wellLinked (capacity : Int) (hcap : 1 ≤ capacity) (ops : List (Op Int Int)) :
    ∃ replies c nodes, run ops (new capacity) = .ok (replies, c) ∧ WellLinked c nodes ∧
      ∀ node, Dropped capacity ops node → Unreferenced c node := by
  rcases (sound_new capacity).run ops hcap with ⟨replies, c, refs, hrun, hsound, -⟩
  refine ⟨replies, c, refs, hrun, hsound.wellLinked, ?_⟩
  rintro node ⟨ops₁, op, ops₂, replies₁, c₁, reply, c₂, key, rfl, hrun₁, hcall, hfound, hlost⟩
  rcases (sound_new capacity).run ops₁ hcap with ⟨_, c₁', refs₁, hrun₁', hsound₁, hlater₁⟩
  rw [hrun₁] at hrun₁'
  cases hrun₁'
  have hcap₁ : 1 ≤ c₁.capacity := by
    rw [hlater₁.capacity]
    exact hcap
  rcases hsound₁.call hcap₁ op with ⟨_, c₂', refs₂, hcall', hsound₂, hlater₂⟩
  rw [hcall] at hcall'
  cases hcall'
  rcases hsound₁.notMem hsound₂ hlater₂ hfound hlost with ⟨hlt, hnot⟩
  -- What comes after the call does not bring the node back.
  rcases hsound₂.run ops₂ (by rw [hlater₂.capacity]; exact hcap₁) with
    ⟨replies₂, c₃, refs₃, hrun₂, hsound₃, hlater₃⟩
  have hall : run (ops₁ ++ op :: ops₂) (new capacity) =
      .ok (replies₁ ++ reply :: replies₂, c₃) := by
    rw [run_append _ hrun₁, LRUCache.run, hcall]
    change ((LRUCache.run ops₂ c₂ >>= _) >>= _) = _
    rw [hrun₂]
    rfl
  rw [hrun] at hall
  cases hall
  exact hsound₃.unreferenced (hlater₃.notMem hlt hnot)

/-- With room for two entries, `Put(3)` evicts the node of the second one. -/
theorem lru_wellLinked_evicts : ∃ replies c, run evicting (new 2) = .ok (replies, c) ∧
    Unreferenced c 3 := by
  rcases lru_wellLinked 2 (by decide) evicting with ⟨replies, c, nodes, hrun, -, hdropped⟩
  refine ⟨replies, c, hrun, hdropped 3 ?_⟩
  refine ⟨[.put 1 1, .put 2 2, .get 1], .put 3 3, [.get 2, .get 1], _, _, _, _, 2, rfl, rfl, rfl,
    rfl, ?_⟩
  decide

end LRUCache

end LruAlgorithm

end BlogSample
