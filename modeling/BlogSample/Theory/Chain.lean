import Mathlib.Data.List.Nodup
import Mathlib.Logic.Function.Basic
import Mathlib.Logic.Relation

/-!
# Singly Linked Lists

A pointer that leads along the nodes of a list to the null pointer, and what
becomes of a list whose first node of some kind is taken out, or has another
one in its place. Both are `substitute`: the node is replaced by no node, or
by one.

Other kinds of nodes keep their order under a substitution, and the nodes of
the kind itself lose the first one of theirs.

## Main definitions

* `Chain`: A pointer leads along a list of nodes.
* `substitute`: The first node that passes a test is replaced.

## Theorems

* `Chain.congr`: Only the pointers of its nodes matter to a chain.
* `Chain.unique`: A pointer leads along one list only.
* `Chain.nodup`: A chain has no circle.
* `Chain.link_last`, `Chain.link_other`: The end of a chain is led on.
* `filter_substitute_self`, `filter_substitute_other`: What a substitution does
  to the nodes of a kind.
-/

namespace BlogSample

universe u

variable {ι : Type u}

/-- The pointer leads along the list, and then to `null`. -/
def Chain (next : ι → Option ι) : Option ι → List ι → Prop
  | p, [] => p = none
  | p, a :: l => p = some a ∧ Chain next (next a) l

/-- Only the pointers of its nodes matter to a chain. -/
theorem Chain.congr {next next' : ι → Option ι} {p : Option ι} {l : List ι} (h : Chain next p l)
    (hnext : ∀ a ∈ l, next' a = next a) : Chain next' p l := by
  induction l generalizing p with
  | nil => exact h
  | cons a l ih =>
      refine ⟨h.1, ?_⟩
      rw [hnext a List.mem_cons_self]
      exact ih h.2 (fun b hb => hnext b (List.mem_cons_of_mem a hb))

/-- A pointer leads along one list only. -/
theorem Chain.unique {next : ι → Option ι} {p : Option ι} {l l' : List ι} (h : Chain next p l)
    (h' : Chain next p l') : l = l' := by
  induction l generalizing p l' with
  | nil =>
      cases l' with
      | nil => rfl
      | cons b l' => cases h.symm.trans h'.1
  | cons a l ih =>
      cases l' with
      | nil => cases h'.symm.trans h.1
      | cons b l' =>
          have hab : a = b := Option.some.inj (h.1.symm.trans h'.1)
          subst hab
          rw [ih h.2 h'.2]

/-- A chain goes on from each of its nodes. -/
theorem Chain.suffix {next : ι → Option ι} {p : Option ι} {l l' : List ι} {a : ι}
    (h : Chain next p (l ++ a :: l')) : Chain next (some a) (a :: l') := by
  induction l generalizing p with
  | nil => exact ⟨rfl, h.2⟩
  | cons b l ih => exact ih h.2

/-- A node that comes up again would lead along the list after it, and along a
    longer one. -/
theorem Chain.nodup {next : ι → Option ι} {p : Option ι} {l : List ι} (h : Chain next p l) :
    l.Nodup := by
  induction l generalizing p with
  | nil => exact List.nodup_nil
  | cons a l ih =>
      refine List.nodup_cons.mpr ⟨fun hmem => ?_, ih h.2⟩
      rcases List.append_of_mem hmem with ⟨l₁, l₂, rfl⟩
      have hself : Chain next (some a) (a :: (l₁ ++ a :: l₂)) := ⟨rfl, h.2⟩
      have hsame := hself.unique (Chain.suffix h.2)
      have hlength := congrArg List.length hsame
      simp only [List.length_cons, List.length_append] at hlength
      omega

/-- Following the pointers shortens the chain. -/
theorem Chain.shorter {next : ι → Option ι} {a b : ι}
    (h : Relation.TransGen (fun u v => next u = some v) a b) {l : List ι}
    (hl : Chain next (some a) l) : ∃ l', Chain next (some b) l' ∧ l'.length < l.length := by
  have hstep {u v : ι} (huv : next u = some v) {k : List ι} (hk : Chain next (some u) k) :
      ∃ k', Chain next (some v) k' ∧ k'.length < k.length := by
    cases k with
    | nil => cases hk
    | cons c k =>
        cases Option.some.inj hk.1
        exact ⟨k, huv ▸ hk.2, Nat.lt_succ_self _⟩
  induction h with
  | single hab => exact hstep hab hl
  | tail _ hbc ih =>
      rcases ih with ⟨k, hk, hless⟩
      rcases hstep hbc hk with ⟨k', hk', hless'⟩
      exact ⟨k', hk', Nat.lt_trans hless' hless⟩

/-- So no node of a chain is led back to. -/
theorem Chain.acyclic {next : ι → Option ι} {a : ι} {l : List ι} (hl : Chain next (some a) l) :
    ¬ Relation.TransGen (fun u v => next u = some v) a a := by
  intro h
  rcases hl.shorter h with ⟨l', hl', hless⟩
  rw [hl.unique hl'] at hless
  exact Nat.lt_irrefl _ hless

/-- The last node of a chain leads nowhere. -/
theorem Chain.last {next : ι → Option ι} {p : Option ι} {l : List ι} {r : ι}
    (h : Chain next p (l ++ [r])) : next r = none :=
  h.suffix.2

/-- A node that leads nowhere is the last one of every chain it is in. -/
theorem Chain.eq_last {next : ι → Option ι} {p : Option ι} {l : List ι} {r a : ι}
    (h : Chain next p (l ++ [r])) (ha : next a = none) (hmem : a ∈ l ++ [r]) : a = r := by
  rcases List.append_of_mem hmem with ⟨l₁, l₂, hsplit⟩
  rw [hsplit] at h
  have hnil : l₂ = [] := by
    cases l₂ with
    | nil => rfl
    | cons b l₂ => cases ha.symm.trans h.suffix.2.1
  rw [hnil] at hsplit
  exact (List.append_inj_right' hsplit rfl |> List.singleton_inj.mp).symm

section Link

variable [DecidableEq ι] {next : ι → Option ι} {p : Option ι} {l : List ι} {r x y : ι}

/-- A chain to another end than `y` stays as it is when `y` leads on. -/
theorem Chain.link_other (h : Chain next p (l ++ [r])) (hy : next y = none) (hr : r ≠ y) :
    Chain (Function.update next y (some x)) p (l ++ [r]) := by
  refine h.congr (fun a ha => Function.update_of_ne (fun hay => ?_) _ _)
  exact hr (h.eq_last hy (hay ▸ ha)).symm

/-- A chain that ends with `y` ends with `x` when `y` leads on to `x`. -/
theorem Chain.link_last (h : Chain next p (l ++ [y])) (hx : next x = none) (hxy : x ≠ y) :
    Chain (Function.update next y (some x)) p (l ++ [y] ++ [x]) := by
  have hy := h.last
  induction l generalizing p with
  | nil =>
      refine ⟨h.1, ?_⟩
      rw [Function.update_self]
      refine ⟨rfl, ?_⟩
      rw [Function.update_of_ne hxy]
      exact hx
  | cons a l ih =>
      have hay : a ≠ y := by
        intro hay
        have hnodup := h.nodup
        rw [List.cons_append, List.nodup_cons] at hnodup
        refine hnodup.1 (List.mem_append_right l ?_)
        rw [hay]
        exact List.mem_singleton_self y
      refine ⟨h.1, ?_⟩
      rw [Function.update_of_ne hay]
      exact ih h.2

end Link

/-- The first element that passes the test is replaced. -/
def substitute (p : ι → Bool) (ys : List ι) : List ι → List ι
  | [] => []
  | a :: l => if p a then ys ++ l else a :: substitute p ys l

section Substitute

variable {p q : ι → Bool} {ys l : List ι}

/-- An element after a substitution is a new one or was there before. -/
theorem mem_or_mem_of_mem_substitute {a : ι} (h : a ∈ substitute p ys l) : a ∈ ys ∨ a ∈ l := by
  induction l with
  | nil => cases h
  | cons b l ih =>
      unfold substitute at h
      split at h
      · exact (List.mem_append.mp h).imp_right (List.mem_cons_of_mem b)
      · rcases List.mem_cons.mp h with rfl | h
        · exact Or.inr List.mem_cons_self
        · exact (ih h).imp_right (List.mem_cons_of_mem b)

/-- New elements leave the elements different. -/
theorem nodup_substitute (hl : l.Nodup) (hys : ys.Nodup) (hnew : ∀ a ∈ ys, a ∉ l) :
    (substitute p ys l).Nodup := by
  induction l with
  | nil => exact List.nodup_nil
  | cons b l ih =>
      have hrest := fun a ha hmem => hnew a ha (List.mem_cons_of_mem b hmem)
      rw [List.nodup_cons] at hl
      unfold substitute
      split
      · exact List.nodup_append'.mpr ⟨hys, hl.2, fun a ha hmem => hrest a ha hmem⟩
      · refine List.nodup_cons.mpr ⟨fun hmem => ?_, ih hl.2 hrest⟩
        rcases mem_or_mem_of_mem_substitute hmem with hb | hb
        · exact hnew b hb List.mem_cons_self
        · exact hl.1 hb

/-- The elements that pass the test lose the first one of them to the new
    ones. -/
theorem filter_substitute_self (hys : ∀ a ∈ ys, p a = true) :
    (substitute p ys l).filter p =
      match l.filter p with
      | [] => []
      | _ :: rest => ys ++ rest := by
  induction l with
  | nil => rfl
  | cons a l ih =>
      unfold substitute
      by_cases ha : p a = true
      · rw [if_pos ha, List.filter_append, List.filter_eq_self.mpr hys, List.filter_cons_of_pos ha]
      · rw [if_neg ha, List.filter_cons_of_neg ha, List.filter_cons_of_neg ha]
        exact ih

/-- Elements of another kind stay as they are. -/
theorem filter_substitute_other (hys : ∀ a ∈ ys, q a = false)
    (hpq : ∀ a ∈ l, p a = true → q a = false) : (substitute p ys l).filter q = l.filter q := by
  induction l with
  | nil => rfl
  | cons a l ih =>
      unfold substitute
      by_cases ha : p a = true
      · have hqa : ¬ q a = true := Bool.not_eq_true _ ▸ hpq a List.mem_cons_self ha
        have hnone : ys.filter q = [] :=
          List.filter_eq_nil_iff.mpr (fun b hb => Bool.not_eq_true _ ▸ hys b hb)
        rw [if_pos ha, List.filter_append, hnone, List.nil_append, List.filter_cons_of_neg hqa]
      · rw [if_neg ha, List.filter_cons, List.filter_cons,
          ih (fun b hb => hpq b (List.mem_cons_of_mem a hb))]

end Substitute

end BlogSample
