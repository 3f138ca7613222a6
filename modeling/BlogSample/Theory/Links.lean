import Mathlib.Data.List.Chain
import Mathlib.Data.List.Nodup
import Mathlib.Logic.Function.Basic

/-!
# Doubly Linked Lists

Nodes that point to the node before and the node after them. `Links` is where
the nodes of a heap point, whatever else they carry, and `Chained` says that
a list of nodes is linked up in both directions.

An update of a pointer is harmless to a chain that does not follow it, which
is `Chained.congr`; the last node of a chain may point anywhere forwards, and
the first one anywhere backwards. Taking a node out and putting one in are
four such updates each.

`Exact` says that there are no other pointers than those of the chain. So no
node points to one that is not in it. Taking a node out and putting one in
keep that too.

## Main definitions

* `Links`: Where nodes point.
* `Chained`: A list of nodes that are linked up.
* `unlink`, `link`: Take a node out, put a node in.
* `Exact`: The pointers are those of one chain.

## Theorems

* `Chained.congr`: Only the pointers between its nodes matter to a chain.
* `Chained.sides`: What a change in the middle leaves alone.
* `Chained.unique`: There is one chain from a node to another.
* `Chained.unlink`: A chain without one of its nodes.
* `Chained.link`: A chain with another node.
* `Exact.not_referenced`: No node points to one outside the chain.
* `Exact.unlink`, `Exact.link`: There still are no other pointers.
-/

namespace BlogSample

universe u

/-- Where the nodes of a heap point. -/
@[ext]
structure Links (ι : Type u) where
  prev : ι → Option ι
  next : ι → Option ι

namespace Links

variable {ι : Type u}

/-- Every node of the list points to the next one, which points back. -/
def Chained (l : Links ι) (xs : List ι) : Prop :=
  xs.IsChain (fun a b => l.next a = some b ∧ l.prev b = some a)

/-- Only the pointers between its nodes matter to a chain. -/
theorem Chained.congr {l l' : Links ι} {xs : List ι} (h : l.Chained xs)
    (hnext : ∀ a ∈ xs.dropLast, l'.next a = l.next a)
    (hprev : ∀ a ∈ xs.tail, l'.prev a = l.prev a) : l'.Chained xs := by
  unfold Chained at h ⊢
  induction xs with
  | nil => exact .nil
  | cons a xs ih =>
      cases xs with
      | nil => exact .singleton a
      | cons b xs =>
          rw [List.isChain_cons_cons] at h ⊢
          refine ⟨⟨?_, ?_⟩, ih h.2 ?_ ?_⟩
          · rw [hnext a List.mem_cons_self]
            exact h.1.1
          · rw [hprev b List.mem_cons_self]
            exact h.1.2
          · intro c hc
            exact hnext c (List.mem_cons_of_mem a hc)
          · intro c hc
            exact hprev c (List.mem_cons_of_mem b hc)

/-- Two neighbours in the middle of a chain. -/
theorem chained_append {l : Links ι} {xs ys : List ι} {a b : ι} :
    l.Chained (xs ++ a :: b :: ys) ↔
      l.Chained (xs ++ [a]) ∧ (l.next a = some b ∧ l.prev b = some a) ∧ l.Chained (b :: ys) :=
  List.isChain_append_cons_cons

/-- What is on the two sides of `a`, `x` and `b` stays linked up when only
    these three change. -/
theorem Chained.sides {l l' : Links ι} {xs ys : List ι} {a x b : ι}
    (hn : (xs ++ a :: x :: b :: ys).Nodup)
    (hnext : ∀ c, c ≠ a → c ≠ x → l'.next c = l.next c)
    (hprev : ∀ c, c ≠ x → c ≠ b → l'.prev c = l.prev c)
    (hleft : l.Chained (xs ++ [a])) (hright : l.Chained (b :: ys)) :
    l'.Chained (xs ++ [a]) ∧ l'.Chained (b :: ys) := by
  simp only [List.nodup_append, List.nodup_cons, List.mem_cons, not_or] at hn
  -- Neither `a` nor `x` is asked for its next, nor `x` or `b` for its previous,
  -- on a side that does not reach it.
  rcases hn with ⟨-, ⟨⟨hax, hab, hay⟩, ⟨hxb, hxy⟩, hby, -⟩, hdisj⟩
  refine ⟨hleft.congr ?_ ?_, hright.congr ?_ ?_⟩
  · intro c hc
    rw [List.dropLast_concat] at hc
    exact hnext c (hdisj c hc a (Or.inl rfl)) (hdisj c hc x (Or.inr (Or.inl rfl)))
  · intro c hc
    rcases List.mem_append.mp (List.mem_of_mem_tail hc) with hmem | hmem
    · exact hprev c (hdisj c hmem x (Or.inr (Or.inl rfl)))
        (hdisj c hmem b (Or.inr (Or.inr (Or.inl rfl))))
    · rw [List.mem_singleton.mp hmem]
      exact hprev a hax hab
  · intro c hc
    rcases List.mem_cons.mp (List.dropLast_subset _ hc) with hmem | hmem
    · rw [hmem]
      exact hnext b (Ne.symm hab) (Ne.symm hxb)
    · refine hnext c ?_ ?_
      · intro hca
        exact hay (hca ▸ hmem)
      · intro hcx
        exact hxy (hcx ▸ hmem)
  · intro c hc
    have hmem : c ∈ ys := hc
    refine hprev c ?_ ?_
    · intro hcx
      exact hxy (hcx ▸ hmem)
    · intro hcb
      exact hby (hcb ▸ hmem)

/-- The three nodes are different. -/
theorem ne_of_nodup {xs ys : List ι} {a x b : ι} (hn : (xs ++ a :: x :: b :: ys).Nodup) :
    a ≠ x ∧ a ≠ b ∧ x ≠ b := by
  simp only [List.nodup_append, List.nodup_cons, List.mem_cons, not_or] at hn
  exact ⟨hn.2.1.1.1, hn.2.1.1.2.1, hn.2.1.2.1.1⟩

/-- There is one chain from a node to another one, which comes at its end only. -/
theorem Chained.unique {l : Links ι} {a t : ι} {xs ys : List ι}
    (h : l.Chained (a :: (xs ++ [t]))) (h' : l.Chained (a :: (ys ++ [t])))
    (hxs : t ∉ xs) (hys : t ∉ ys) : xs = ys := by
  induction xs generalizing a ys with
  | nil =>
      cases ys with
      | nil => rfl
      | cons y ys =>
          have hnext := (List.isChain_cons_cons.mp h).1.1
          rw [(List.isChain_cons_cons.mp h').1.1, Option.some.injEq] at hnext
          exact absurd (hnext ▸ List.mem_cons_self) hys
  | cons x xs ih =>
      rcases List.isChain_cons_cons.mp h with ⟨⟨hnext, -⟩, hrest⟩
      cases ys with
      | nil =>
          rw [(List.isChain_cons_cons.mp h').1.1, Option.some.injEq] at hnext
          exact absurd (hnext ▸ List.mem_cons_self) hxs
      | cons y ys =>
          -- Both go on with the node that the first one points to.
          rcases List.isChain_cons_cons.mp h' with ⟨⟨hnext', -⟩, hrest'⟩
          rw [hnext, Option.some.injEq] at hnext'
          subst hnext'
          rw [ih hrest hrest' (fun hm => hxs (List.mem_cons_of_mem _ hm))
            (fun hm => hys (List.mem_cons_of_mem _ hm))]

/-- The pointers are those of a chain: its ends point no further, and the nodes outside point
    nowhere. -/
structure Exact (l : Links ι) (xs : List ι) : Prop where
  chained : l.Chained xs
  first : ∀ a ∈ xs.head?, l.prev a = none
  last : ∀ a ∈ xs.getLast?, l.next a = none
  outside : ∀ a, a ∉ xs → l.prev a = none ∧ l.next a = none

/-- No node points to one outside the chain. -/
theorem Exact.not_referenced {l : Links ι} {xs : List ι} (h : l.Exact xs) {x : ι} (hx : x ∉ xs)
    (a : ι) : l.next a ≠ some x ∧ l.prev a ≠ some x := by
  by_cases ha : a ∈ xs
  · rcases List.append_of_mem ha with ⟨ys, zs, rfl⟩
    constructor
    -- It points to the node after it, if there is one.
    · intro hnext
      cases zs with
      | nil =>
          rw [h.last a (by rw [List.getLast?_concat]; rfl)] at hnext
          cases hnext
      | cons b zs =>
          rw [(chained_append.mp h.chained).2.1.1, Option.some.injEq] at hnext
          refine hx (hnext ▸ ?_)
          exact List.mem_append_right ys (List.mem_cons_of_mem a List.mem_cons_self)
    -- And to the node before it.
    · intro hprev
      rcases List.eq_nil_or_concat' ys with rfl | ⟨ys, b, rfl⟩
      · rw [h.first a rfl] at hprev
        cases hprev
      · have hchained := h.chained
        rw [List.append_assoc, List.singleton_append] at hchained
        rw [(chained_append.mp hchained).2.1.2, Option.some.injEq] at hprev
        refine hx (hprev ▸ ?_)
        exact List.mem_append_left _ (List.mem_append_right ys List.mem_cons_self)
  · rw [(h.outside a ha).1, (h.outside a ha).2]
    exact ⟨(Option.some_ne_none x).symm, (Option.some_ne_none x).symm⟩

theorem head?_append_cons (xs : List ι) (a : ι) (ys : List ι) :
    (xs ++ a :: ys).head? = (xs ++ [a]).head? := by
  cases xs <;> rfl

theorem getLast?_append_cons (xs : List ι) (a : ι) (ys : List ι) :
    (xs ++ a :: ys).getLast? = (a :: ys).getLast? :=
  List.getLast?_append_of_ne_nil xs (List.cons_ne_nil a ys)

/-- The ends of a chain still point no further when only `a`, `x` and `b` in
    the middle change. -/
theorem ends_of_ne {l l' : Links ι} {xs ys : List ι} {a x b : ι}
    (hn : (xs ++ a :: x :: b :: ys).Nodup)
    (hnext : ∀ c, c ≠ a → c ≠ x → l'.next c = l.next c)
    (hprev : ∀ c, c ≠ x → c ≠ b → l'.prev c = l.prev c)
    (hfirst : ∀ c ∈ (xs ++ [a]).head?, l.prev c = none)
    (hlast : ∀ c ∈ (b :: ys).getLast?, l.next c = none) :
    (∀ c ∈ (xs ++ [a]).head?, l'.prev c = none) ∧
      ∀ c ∈ (b :: ys).getLast?, l'.next c = none := by
  have hn' := hn
  rw [List.append_cons, List.nodup_append] at hn
  rw [List.append_cons, List.append_cons, List.nodup_append] at hn'
  constructor
  · intro c hc
    have hne := hn.2.2 c (List.mem_of_mem_head? hc)
    rw [hprev c (hne x (by simp)) (hne b (by simp))]
    exact hfirst c hc
  · intro c hc
    have hne := fun d hd => (hn'.2.2 d hd c (List.mem_of_mem_getLast? hc)).symm
    rw [hnext c (hne a (by simp)) (hne x (by simp))]
    exact hlast c hc

variable [DecidableEq ι]

/-- Let a node point backwards somewhere else. -/
def setPrev (l : Links ι) (a : ι) (p : Option ι) : Links ι :=
  { l with prev := Function.update l.prev a p }

/-- Let a node point forwards somewhere else. -/
def setNext (l : Links ι) (a : ι) (n : Option ι) : Links ι :=
  { l with next := Function.update l.next a n }

@[simp]
theorem setPrev_next (l : Links ι) (a : ι) (p : Option ι) : (l.setPrev a p).next = l.next := rfl

@[simp]
theorem setNext_prev (l : Links ι) (a : ι) (n : Option ι) : (l.setNext a n).prev = l.prev := rfl

@[simp]
theorem setPrev_prev_self (l : Links ι) (a : ι) (p : Option ι) : (l.setPrev a p).prev a = p := by
  simp only [setPrev, Function.update_self]

@[simp]
theorem setNext_next_self (l : Links ι) (a : ι) (n : Option ι) : (l.setNext a n).next a = n := by
  simp only [setNext, Function.update_self]

theorem setPrev_prev_of_ne {l : Links ι} {a b : ι} (h : b ≠ a) (p : Option ι) :
    (l.setPrev a p).prev b = l.prev b := by
  simp only [setPrev, Function.update_of_ne h]

theorem setNext_next_of_ne {l : Links ι} {a b : ι} (h : b ≠ a) (n : Option ι) :
    (l.setNext a n).next b = l.next b := by
  simp only [setNext, Function.update_of_ne h]

/-- Take the node `x` out from between `a` and `b`. -/
def unlink (l : Links ι) (a x b : ι) : Links ι :=
  (((l.setPrev b (some a)).setNext a (some b)).setNext x none).setPrev x none

/-- Put the node `x` between `a` and `b`. -/
def link (l : Links ι) (a x b : ι) : Links ι :=
  (((l.setNext x (some b)).setPrev x (some a)).setPrev b (some x)).setNext a (some x)

theorem unlink_next_of_ne {l : Links ι} {a x c : ι} (hca : c ≠ a) (hcx : c ≠ x) (b : ι) :
    (l.unlink a x b).next c = l.next c := by
  unfold unlink
  rw [setPrev_next, setNext_next_of_ne hcx, setNext_next_of_ne hca, setPrev_next]

theorem unlink_prev_of_ne {l : Links ι} {x b c : ι} (hcx : c ≠ x) (hcb : c ≠ b) (a : ι) :
    (l.unlink a x b).prev c = l.prev c := by
  unfold unlink
  rw [setPrev_prev_of_ne hcx, setNext_prev, setNext_prev, setPrev_prev_of_ne hcb]

/-- The node that is taken out points nowhere. -/
theorem unlink_self (l : Links ι) (a x b : ι) :
    (l.unlink a x b).prev x = none ∧ (l.unlink a x b).next x = none := by
  unfold unlink
  rw [setPrev_prev_self, setPrev_next, setNext_next_self]
  exact ⟨rfl, rfl⟩

theorem link_next_of_ne {l : Links ι} {a x c : ι} (hca : c ≠ a) (hcx : c ≠ x) (b : ι) :
    (l.link a x b).next c = l.next c := by
  unfold link
  rw [setNext_next_of_ne hca, setPrev_next, setPrev_next, setNext_next_of_ne hcx]

theorem link_prev_of_ne {l : Links ι} {x b c : ι} (hcx : c ≠ x) (hcb : c ≠ b) (a : ι) :
    (l.link a x b).prev c = l.prev c := by
  unfold link
  rw [setNext_prev, setPrev_prev_of_ne hcb, setPrev_prev_of_ne hcx, setNext_prev]

/-- A chain without one of its nodes. -/
theorem Chained.unlink {l : Links ι} {xs ys : List ι} {a x b : ι}
    (h : l.Chained (xs ++ a :: x :: b :: ys)) (hn : (xs ++ a :: x :: b :: ys).Nodup) :
    (l.unlink a x b).Chained (xs ++ a :: b :: ys) := by
  rcases chained_append.mp h with ⟨hfront, -, hback⟩
  rcases ne_of_nodup hn with ⟨hax, hab, hxb⟩
  have hsides : (l.unlink a x b).Chained (xs ++ [a]) ∧ (l.unlink a x b).Chained (b :: ys) := by
    refine Chained.sides hn ?_ ?_ hfront (List.isChain_cons_cons.mp hback).2
    · exact fun c hca hcx => unlink_next_of_ne hca hcx b
    · exact fun c hcx hcb => unlink_prev_of_ne hcx hcb a
  refine chained_append.mpr ⟨hsides.1, ⟨?_, ?_⟩, hsides.2⟩
  · unfold Links.unlink
    rw [setPrev_next, setNext_next_of_ne hax, setNext_next_self]
  · unfold Links.unlink
    rw [setPrev_prev_of_ne (Ne.symm hxb), setNext_prev, setNext_prev, setPrev_prev_self]

/-- A chain with another node. -/
theorem Chained.link {l : Links ι} {xs ys : List ι} {a x b : ι}
    (h : l.Chained (xs ++ a :: b :: ys)) (hn : (xs ++ a :: x :: b :: ys).Nodup) :
    (l.link a x b).Chained (xs ++ a :: x :: b :: ys) := by
  rcases chained_append.mp h with ⟨hfront, -, hback⟩
  rcases ne_of_nodup hn with ⟨hax, hab, hxb⟩
  have hsides : (l.link a x b).Chained (xs ++ [a]) ∧ (l.link a x b).Chained (b :: ys) := by
    refine Chained.sides hn ?_ ?_ hfront hback
    · exact fun c hca hcx => link_next_of_ne hca hcx b
    · exact fun c hcx hcb => link_prev_of_ne hcx hcb a
  refine chained_append.mpr ⟨hsides.1, ⟨?_, ?_⟩,
    List.isChain_cons_cons.mpr ⟨⟨?_, ?_⟩, hsides.2⟩⟩
  · unfold Links.link
    rw [setNext_next_self]
  · unfold Links.link
    rw [setNext_prev, setPrev_prev_of_ne hxb, setPrev_prev_self]
  · unfold Links.link
    rw [setNext_next_of_ne (Ne.symm hax), setPrev_next, setPrev_next, setNext_next_self]
  · unfold Links.link
    rw [setNext_prev, setPrev_prev_self]

/-- A node that is taken out has no pointers, and none to it are left. -/
theorem Exact.unlink {l : Links ι} {xs ys : List ι} {a x b : ι}
    (h : l.Exact (xs ++ a :: x :: b :: ys)) (hn : (xs ++ a :: x :: b :: ys).Nodup) :
    (l.unlink a x b).Exact (xs ++ a :: b :: ys) := by
  have hfirst := h.first
  have hlast := h.last
  rw [head?_append_cons] at hfirst
  rw [List.append_cons, List.append_cons, getLast?_append_cons] at hlast
  have hends := ends_of_ne hn (fun c hca hcx => unlink_next_of_ne hca hcx b)
    (fun c hcx hcb => unlink_prev_of_ne hcx hcb a) hfirst hlast
  refine ⟨h.chained.unlink hn, ?_, ?_, fun c hc => ?_⟩
  · rw [head?_append_cons]
    exact hends.1
  · rw [List.append_cons, getLast?_append_cons]
    exact hends.2
  · by_cases hcx : c = x
    · rw [hcx]
      exact unlink_self l a x b
    · simp only [List.mem_append, List.mem_cons, not_or] at hc
      rcases hc with ⟨hcxs, hca, hcb, hcys⟩
      rw [unlink_prev_of_ne hcx hcb, unlink_next_of_ne hca hcx]
      refine h.outside c ?_
      simp only [List.mem_append, List.mem_cons, not_or]
      exact ⟨hcxs, hca, hcx, hcb, hcys⟩

/-- A node that is put in gets the only pointers that are added. -/
theorem Exact.link {l : Links ι} {xs ys : List ι} {a x b : ι} (h : l.Exact (xs ++ a :: b :: ys))
    (hn : (xs ++ a :: x :: b :: ys).Nodup) : (l.link a x b).Exact (xs ++ a :: x :: b :: ys) := by
  have hfirst := h.first
  have hlast := h.last
  rw [head?_append_cons] at hfirst
  rw [List.append_cons, getLast?_append_cons] at hlast
  have hends := ends_of_ne hn (fun c hca hcx => link_next_of_ne hca hcx b)
    (fun c hcx hcb => link_prev_of_ne hcx hcb a) hfirst hlast
  refine ⟨h.chained.link hn, ?_, ?_, fun c hc => ?_⟩
  · rw [head?_append_cons]
    exact hends.1
  · rw [List.append_cons, List.append_cons, getLast?_append_cons]
    exact hends.2
  · simp only [List.mem_append, List.mem_cons, not_or] at hc
    rcases hc with ⟨hcxs, hca, hcx, hcb, hcys⟩
    rw [link_prev_of_ne hcx hcb, link_next_of_ne hca hcx]
    refine h.outside c ?_
    simp only [List.mem_append, List.mem_cons, not_or]
    exact ⟨hcxs, hca, hcb, hcys⟩

end Links

end BlogSample
