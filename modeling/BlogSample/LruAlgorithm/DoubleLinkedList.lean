import BlogSample.DotNet
import BlogSample.Theory.Links

/-!
# The Linked List of the Cache

`DoubleLinkedList` on a heap of nodes. A reference is the position of its
node in the heap, nodes are never collected, and a null reference is `none`,
so following one throws. The two fields of the list are sentinels: they carry
no entry, and every other node of the list stands between them.

`Holds` says that the list consists of given nodes. The methods turn one such
list into another and throw on none.

## Main definitions

* `Node`, `Heap`: Nodes and where they are.
* `DoubleLinkedList`: The two sentinels.
* `addHeader`, `removeNode`, `getLastNode`: The methods.
* `Holds`: The nodes of a list, from the front.

## Theorems

* `new_holds`: A new list is empty.
* `addHeader_holds`: A node is added at the front.
* `removeNode_holds`: A node is taken out.
* `getLastNode_holds`: The node at the back.
-/

namespace BlogSample

namespace LruAlgorithm

open DotNet

/-- A reference to a node. -/
abbrev Ref : Type := Nat

/-- A `Node<Tkey, TValue>`. -/
structure Node (κ υ : Type) where
  value : υ
  key : κ
  prev : Option Ref
  next : Option Ref

/-- The nodes that have been created. -/
abbrev Heap (κ υ : Type) : Type := List (Node κ υ)

namespace Heap

variable {κ υ : Type}

/-- A new node, which gets the next position. -/
def alloc (h : Heap κ υ) (n : Node κ υ) : Heap κ υ := h ++ [n]

/-- `r.Prev`. -/
def prev (h : Heap κ υ) (r : Ref) : Option Ref :=
  (h[r]?).bind Node.prev

/-- `r.Next`. -/
def next (h : Heap κ υ) (r : Ref) : Option Ref :=
  (h[r]?).bind Node.next

/-- `r.Key` and `r.Value`. -/
def entry (h : Heap κ υ) (r : Ref) : Option (κ × υ) :=
  (h[r]?).map (fun n => (n.key, n.value))

/-- `r.Prev = p`. -/
def setPrev (h : Heap κ υ) (r : Ref) (p : Option Ref) : Heap κ υ :=
  h.modify r (fun n => { n with prev := p })

/-- `r.Next = p`. -/
def setNext (h : Heap κ υ) (r : Ref) (p : Option Ref) : Heap κ υ :=
  h.modify r (fun n => { n with next := p })

/-- Where the nodes point. -/
def links (h : Heap κ υ) : Links Ref := ⟨h.prev, h.next⟩

@[simp]
theorem length_setPrev (h : Heap κ υ) (r : Ref) (p : Option Ref) :
    (h.setPrev r p).length = h.length :=
  List.length_modify ..

@[simp]
theorem length_setNext (h : Heap κ υ) (r : Ref) (p : Option Ref) :
    (h.setNext r p).length = h.length :=
  List.length_modify ..

@[simp]
theorem length_alloc (h : Heap κ υ) (n : Node κ υ) : (h.alloc n).length = h.length + 1 := by
  unfold alloc
  rw [List.length_append]
  rfl

@[simp]
theorem entry_setPrev (h : Heap κ υ) (r : Ref) (p : Option Ref) :
    (h.setPrev r p).entry = h.entry := by
  ext x : 1
  unfold entry setPrev
  rw [List.getElem?_modify]
  by_cases hx : r = x
  · cases h[x]? <;> simp [hx]
  · simp [hx]

@[simp]
theorem entry_setNext (h : Heap κ υ) (r : Ref) (p : Option Ref) :
    (h.setNext r p).entry = h.entry := by
  ext x : 1
  unfold entry setNext
  rw [List.getElem?_modify]
  by_cases hx : r = x
  · cases h[x]? <;> simp [hx]
  · simp [hx]

/-- An assignment to `Prev` of a node that exists. -/
theorem links_setPrev {h : Heap κ υ} {r : Ref} (hr : r < h.length) (p : Option Ref) :
    (h.setPrev r p).links = h.links.setPrev r p := by
  ext x : 2
  · change (h.setPrev r p).prev x = Function.update h.prev r p x
    unfold prev setPrev
    rw [List.getElem?_modify]
    by_cases hx : x = r
    · rw [hx, Function.update_self, List.getElem?_eq_getElem hr]
      simp
    · rw [Function.update_of_ne hx]
      simp [Ne.symm hx]
  · change (h.setPrev r p).next x = h.next x
    unfold next setPrev
    rw [List.getElem?_modify]
    cases h[x]? <;> by_cases hx : r = x <;> simp [hx]

/-- An assignment to `Next` of a node that exists. -/
theorem links_setNext {h : Heap κ υ} {r : Ref} (hr : r < h.length) (p : Option Ref) :
    (h.setNext r p).links = h.links.setNext r p := by
  ext x : 2
  · change (h.setNext r p).prev x = h.prev x
    unfold prev setNext
    rw [List.getElem?_modify]
    cases h[x]? <;> by_cases hx : r = x <;> simp [hx]
  · change (h.setNext r p).next x = Function.update h.next r p x
    unfold next setNext
    rw [List.getElem?_modify]
    by_cases hx : x = r
    · rw [hx, Function.update_self, List.getElem?_eq_getElem hr]
      simp
    · rw [Function.update_of_ne hx]
      simp [Ne.symm hx]

/-- A new node points nowhere. -/
theorem links_new (h : Heap κ υ) (k : κ) (v : υ) :
    (h.alloc ⟨v, k, none, none⟩).links = h.links := by
  have hget : ∀ x, (h ++ [(⟨v, k, none, none⟩ : Node κ υ)])[x]? =
      if x = h.length then some ⟨v, k, none, none⟩ else h[x]? := by
    intro x
    rw [List.getElem?_append]
    by_cases hlt : x < h.length
    · rw [if_pos hlt, if_neg (Nat.ne_of_lt hlt)]
    · rw [if_neg hlt]
      by_cases heq : x = h.length
      · simp [heq]
      · have hle : h.length + 1 ≤ x := by omega
        rw [if_neg heq, List.getElem?_eq_none (by simpa using Nat.le_sub_of_add_le' hle),
          List.getElem?_eq_none (by omega)]
  ext x : 2
  · change (((h ++ [_])[x]?).bind Node.prev) = (h[x]?).bind Node.prev
    rw [hget]
    by_cases heq : x = h.length
    · simp [heq]
    · rw [if_neg heq]
  · change (((h ++ [_])[x]?).bind Node.next) = (h[x]?).bind Node.next
    rw [hget]
    by_cases heq : x = h.length
    · simp [heq]
    · rw [if_neg heq]

theorem entry_new_of_lt {h : Heap κ υ} {r : Ref} (hr : r < h.length) (n : Node κ υ) :
    (h.alloc n).entry r = h.entry r := by
  unfold entry alloc
  rw [List.getElem?_append_left hr]

theorem entry_new_self (h : Heap κ υ) (n : Node κ υ) :
    (h.alloc n).entry h.length = some (n.key, n.value) := by
  unfold entry alloc
  rw [List.getElem?_concat_length]
  rfl

end Heap

/-- A `DoubleLinkedList<Tkey, TValue>`: the fields `_header` and `_tail`. -/
structure DoubleLinkedList where
  header : Ref
  tail : Ref

namespace DoubleLinkedList

variable {κ υ : Type}

/-- Following a reference throws if it is null. -/
def nonNull (r : Option Ref) : Except Exn Ref :=
  match r with
  | some r => pure r
  | none => throw .nullReference

/-- `new DoubleLinkedList<Tkey, TValue>()`. -/
def new [Inhabited κ] [Inhabited υ] (h : Heap κ υ) : DoubleLinkedList × Heap κ υ :=
  let header := h.length
  let h := h.alloc ⟨default, default, none, none⟩
  let tail := h.length
  let h := h.alloc ⟨default, default, none, none⟩
  (⟨header, tail⟩, (h.setNext header (some tail)).setPrev tail (some header))

/-- `AddHeader(node)`. -/
def addHeader (l : DoubleLinkedList) (node : Ref) (h : Heap κ υ) : Except Exn (Heap κ υ) := do
  let h := h.setNext node (h.next l.header)
  let h := h.setPrev node (some l.header)
  let first ← nonNull (h.next l.header)
  let h := h.setPrev first (some node)
  pure (h.setNext l.header (some node))

/-- `RemoveNode(node)`. -/
def removeNode (node : Ref) (h : Heap κ υ) : Except Exn (Heap κ υ) := do
  let next ← nonNull (h.next node)
  let h := h.setPrev next (h.prev node)
  let prev ← nonNull (h.prev node)
  let h := h.setNext prev (h.next node)
  pure ((h.setNext node none).setPrev node none)

/-- `GetLastNode()`. -/
def getLastNode (l : DoubleLinkedList) (h : Heap κ υ) : Option Ref :=
  h.prev l.tail

/-- The list consists of the given nodes, from the front. -/
structure Holds (l : DoubleLinkedList) (h : Heap κ υ) (refs : List Ref) : Prop where
  chained : h.links.Chained (l.header :: (refs ++ [l.tail]))
  nodup : (l.header :: (refs ++ [l.tail])).Nodup
  valid : ∀ r ∈ l.header :: (refs ++ [l.tail]), r < h.length

/-- A list goes on being one when other nodes are created. -/
theorem Holds.new_node {l : DoubleLinkedList} {h : Heap κ υ} {refs : List Ref}
    (hl : l.Holds h refs) (k : κ) (v : υ) : l.Holds (h.alloc ⟨v, k, none, none⟩) refs where
  chained := by
    rw [Heap.links_new]
    exact hl.chained
  nodup := hl.nodup
  valid := by
    intro r hr
    rw [Heap.length_alloc]
    exact Nat.lt_add_right 1 (hl.valid r hr)

/-- A new list is empty. -/
theorem new_holds [Inhabited κ] [Inhabited υ] :
    (new ([] : Heap κ υ)).1.Holds (new ([] : Heap κ υ)).2 [] where
  chained := List.isChain_cons_cons.mpr ⟨⟨rfl, rfl⟩, .singleton 1⟩
  nodup := by
    change [0, 1].Nodup
    decide
  valid := by
    intro r hr
    change r ∈ [0, 1] at hr
    change r < 2
    rcases List.mem_cons.mp hr with hr | hr
    · rw [hr]
      exact Nat.zero_lt_two
    · rw [List.mem_singleton.mp hr]
      exact Nat.one_lt_two

/-- What `AddHeader` does to the pointers. -/
theorem addHeader_links {l : DoubleLinkedList} {h : Heap κ υ} {node first : Ref}
    (hheader : l.header < h.length) (hlt : node < h.length) (hfirst : first < h.length)
    (hne : node ≠ l.header) (hnext : h.next l.header = some first) :
    ∃ h', l.addHeader node h = .ok h' ∧ h'.links = h.links.link l.header node first ∧
      h'.entry = h.entry ∧ h'.length = h.length := by
  have hread : ((h.setNext node (some first)).setPrev node (some l.header)).next l.header
      = some first := by
    change Links.next (Heap.links _) l.header = _
    rw [Heap.links_setPrev (by simpa using hlt), Heap.links_setNext hlt, Links.setPrev_next,
      Links.setNext_next_of_ne (Ne.symm hne)]
    exact hnext
  have hadd : l.addHeader node h = .ok
      ((((h.setNext node (some first)).setPrev node (some l.header)).setPrev first
        (some node)).setNext l.header (some node)) := by
    unfold addHeader
    simp only [hnext, hread, nonNull]
    rfl
  refine ⟨_, hadd, ?_, by simp, by simp⟩
  rw [Heap.links_setNext (by simpa using hheader), Heap.links_setPrev (by simpa using hfirst),
    Heap.links_setPrev (by simpa using hlt), Heap.links_setNext hlt]
  rfl

/-- What `RemoveNode` does to the pointers. -/
theorem removeNode_links {h : Heap κ υ} {a node b : Ref} (ha : a < h.length)
    (hx : node < h.length) (hb : b < h.length) (hxb : node ≠ b) (hprev : h.prev node = some a)
    (hnext : h.next node = some b) :
    ∃ h', removeNode node h = .ok h' ∧ h'.links = h.links.unlink a node b ∧
      h'.entry = h.entry ∧ h'.length = h.length := by
  have hread : (h.setPrev b (some a)).prev node = some a := by
    change Links.prev (Heap.links _) node = _
    rw [Heap.links_setPrev hb, Links.setPrev_prev_of_ne hxb]
    exact hprev
  have hread' : (h.setPrev b (some a)).next node = some b := by
    change Links.next (Heap.links _) node = _
    rw [Heap.links_setPrev hb, Links.setPrev_next]
    exact hnext
  have hremove : removeNode node h = .ok ((((h.setPrev b (some a)).setNext a (some b)).setNext
      node none).setPrev node none) := by
    unfold removeNode
    simp only [hnext, hprev, nonNull]
    simp only [pure_bind, hread, hread']
    rfl
  refine ⟨_, hremove, ?_, by simp, by simp⟩
  rw [Heap.links_setPrev (by simpa using hx), Heap.links_setNext (by simpa using hx),
    Heap.links_setNext (by simpa using ha), Heap.links_setPrev hb]
  rfl

/-- A node is put between the header and what comes after it. -/
theorem Holds.addHeader {l : DoubleLinkedList} {h : Heap κ υ} {refs : List Ref} {node : Ref}
    (hl : l.Holds h refs) (hnode : node ∉ l.header :: (refs ++ [l.tail]))
    (hlt : node < h.length) :
    ∃ first rest h', refs ++ [l.tail] = first :: rest ∧
      (l.header :: node :: first :: rest).Nodup ∧ l.addHeader node h = .ok h' ∧
      h'.links = h.links.link l.header node first ∧ h'.entry = h.entry ∧
      h'.length = h.length := by
  -- The node after the header is the first one, or the tail.
  rcases hsplit : refs ++ [l.tail] with _ | ⟨first, rest⟩
  · exact absurd hsplit (by simp)
  have hchain := hl.chained
  have hnodup := hl.nodup
  have hvalid := hl.valid
  rw [hsplit] at hchain hnodup hvalid hnode
  have hheader : l.header < h.length := hvalid _ List.mem_cons_self
  have hfirst : first < h.length := hvalid _ (List.mem_cons_of_mem _ List.mem_cons_self)
  have hne : node ≠ l.header := by
    intro heq
    exact hnode (heq ▸ List.mem_cons_self)
  have hnext : h.next l.header = some first := (List.isChain_cons_cons.mp hchain).1.1
  rcases addHeader_links hheader hlt hfirst hne hnext with ⟨h', hadd, hlinks, hentry, hlen⟩
  have hnodup' : (l.header :: node :: first :: rest).Nodup := by
    simp only [List.nodup_cons, List.mem_cons, not_or] at hnodup hnode ⊢
    exact ⟨⟨Ne.symm hne, hnodup.1⟩, hnode.2, hnodup.2⟩
  exact ⟨first, rest, h', rfl, hnodup', hadd, hlinks, hentry, hlen⟩

/-- A node is added at the front. -/
theorem addHeader_holds {l : DoubleLinkedList} {h : Heap κ υ} {refs : List Ref} {node : Ref}
    (hl : l.Holds h refs) (hnode : node ∉ l.header :: (refs ++ [l.tail]))
    (hlt : node < h.length) :
    ∃ h', l.addHeader node h = .ok h' ∧ l.Holds h' (node :: refs) ∧ h'.entry = h.entry ∧
      h'.length = h.length := by
  rcases hl.addHeader hnode hlt with ⟨first, rest, h', hsplit, hnodup, hadd, hlinks, hentry, hlen⟩
  have hchain := hl.chained
  have hvalid := hl.valid
  rw [hsplit] at hchain hvalid
  refine ⟨h', hadd, ⟨?_, ?_, ?_⟩, hentry, hlen⟩
  · rw [hlinks, List.cons_append, hsplit]
    have hchain : h.links.Chained ([] ++ l.header :: first :: rest) := hchain
    exact hchain.link hnodup
  · rw [List.cons_append, hsplit]
    exact hnodup
  · intro r hr
    rw [List.cons_append, hsplit] at hr
    rw [hlen]
    rcases List.mem_cons.mp hr with hr | hr
    · rw [hr]
      exact hvalid _ List.mem_cons_self
    · rcases List.mem_cons.mp hr with hr | hr
      · rw [hr]
        exact hlt
      · exact hvalid r (List.mem_cons_of_mem _ hr)

/-- The nodes around one of the list. -/
theorem exists_around (l : DoubleLinkedList) (xs ys : List Ref) (node : Ref) :
    ∃ before a b rest, l.header :: (xs ++ node :: ys ++ [l.tail])
        = before ++ a :: node :: b :: rest ∧
      l.header :: (xs ++ ys ++ [l.tail]) = before ++ a :: b :: rest := by
  rcases hleft : (l.header :: xs).reverse with _ | ⟨a, before⟩
  · exact absurd (congrArg List.length hleft) (by simp)
  rcases hright : ys ++ [l.tail] with _ | ⟨b, rest⟩
  · exact absurd (congrArg List.length hright) (by simp)
  have hfront : l.header :: xs = before.reverse ++ [a] := by
    have hrev := congrArg List.reverse hleft
    rw [List.reverse_reverse, List.reverse_cons] at hrev
    exact hrev
  refine ⟨before.reverse, a, b, rest, ?_, ?_⟩
  · rw [List.append_assoc, List.cons_append, hright, ← List.cons_append, hfront, List.append_assoc,
      List.singleton_append]
  · rw [List.append_assoc, hright, ← List.cons_append, hfront, List.append_assoc,
      List.singleton_append]

/-- A node is taken out from between its neighbours. -/
theorem Holds.removeNode {l : DoubleLinkedList} {h : Heap κ υ} {xs ys : List Ref} {node : Ref}
    (hl : l.Holds h (xs ++ node :: ys)) :
    ∃ before a b rest h', l.header :: (xs ++ node :: ys ++ [l.tail])
        = before ++ a :: node :: b :: rest ∧
      l.header :: (xs ++ ys ++ [l.tail]) = before ++ a :: b :: rest ∧
      removeNode node h = .ok h' ∧ h'.links = h.links.unlink a node b ∧ h'.entry = h.entry ∧
      h'.length = h.length := by
  rcases exists_around l xs ys node with ⟨before, a, b, rest, hwith, hwithout⟩
  have hchain := hl.chained
  have hnodup := hl.nodup
  have hvalid := hl.valid
  rw [hwith] at hchain hnodup hvalid
  rcases Links.ne_of_nodup hnodup with ⟨hax, -, hxb⟩
  have ha : a < h.length := hvalid a (by simp)
  have hx : node < h.length := hvalid node (by simp)
  have hb : b < h.length := hvalid b (by simp)
  -- The node points to both its neighbours.
  rcases Links.chained_append.mp hchain with ⟨-, ⟨-, hprev⟩, hback⟩
  have hnext : h.next node = some b := (List.isChain_cons_cons.mp hback).1.1
  have hprev : h.prev node = some a := hprev
  rcases removeNode_links ha hx hb hxb hprev hnext with ⟨h', hremove, hlinks, hentry, hlen⟩
  exact ⟨before, a, b, rest, h', hwith, hwithout, hremove, hlinks, hentry, hlen⟩

/-- A node is taken out. -/
theorem removeNode_holds {l : DoubleLinkedList} {h : Heap κ υ} {xs ys : List Ref} {node : Ref}
    (hl : l.Holds h (xs ++ node :: ys)) :
    ∃ h', removeNode node h = .ok h' ∧ l.Holds h' (xs ++ ys) ∧ h'.entry = h.entry ∧
      h'.length = h.length := by
  rcases hl.removeNode with
    ⟨before, a, b, rest, h', hwith, hwithout, hremove, hlinks, hentry, hlen⟩
  have hchain := hl.chained
  have hnodup := hl.nodup
  have hvalid := hl.valid
  rw [hwith] at hchain hnodup hvalid
  refine ⟨h', hremove, ⟨?_, ?_, ?_⟩, hentry, hlen⟩
  · rw [hlinks, hwithout]
    exact hchain.unlink hnodup
  · rw [hwithout]
    refine hnodup.sublist (List.Sublist.append_left (List.Sublist.cons_cons a ?_) before)
    exact List.sublist_cons_self node (b :: rest)
  · intro r hr
    rw [hwithout] at hr
    rw [hlen]
    refine hvalid r ?_
    simp only [List.mem_append, List.mem_cons] at hr ⊢
    rcases hr with hr | hr | hr
    · exact Or.inl hr
    · exact Or.inr (Or.inl hr)
    · exact Or.inr (Or.inr (Or.inr hr))

/-- The node at the back. -/
theorem getLastNode_holds {l : DoubleLinkedList} {h : Heap κ υ} {xs : List Ref} {node : Ref}
    (hl : l.Holds h (xs ++ [node])) : l.getLastNode h = some node := by
  have hchain := hl.chained
  rw [List.append_assoc, List.singleton_append, ← List.cons_append] at hchain
  exact (Links.chained_append.mp hchain).2.1.2

end DoubleLinkedList

end LruAlgorithm

end BlogSample
