import BlogSample.Theory.BinaryTree

/-!
# Ordered Sets

A set kept in a tree that is navigated by a comparison. The comparison need not
be an order: nothing is assumed about it, and what a descent finds is stated by
the nodes on its way. A position in the set is the number of values before it,
so that the position past the end is their number.

Insertion and removal say which values there are afterwards and in which order.
The shape of the tree afterwards is left open, since it depends on how the tree
is balanced.

## Main definitions

* `descend`: The position at which a descent ends.
* `passed`: The nodes on the way to a position that lie behind it.
* `lowerBound`, `upperBound`, `emplace`, `find`: The operations of a set.
* `ofList`: A tree of some values.

## Theorems

* `descend_eq_length`: A descent between two groups of values.
* `descend_eq_iff`: A descent ends at a node if and only if it turns left at all
  nodes behind it.
* `find_eq_some_iff`: When a value that is there is found.
* `find_some`: What is found.
* `emplace_eq`: Insertion between two groups of values.
-/

namespace BlogSample

universe u v w

namespace BinaryTree

variable {ρ : Type u} {α : Type v} {κ : Type w}

/-- How many values are to the left of the place where a descent ends that goes to
    the right at the nodes with `p`. -/
def descend (p : α → Bool) : BinaryTree ρ α → Nat
  | null => 0
  | node _ l v r => if p v then l.values.length + 1 + descend p r else descend p l

/-- The nodes on the way to a position that have it in their left subtree. -/
def passed : BinaryTree ρ α → Nat → List α
  | null, _ => []
  | node _ l v r, i =>
      if i < l.values.length then v :: passed l i
      else if i = l.values.length then []
      else passed r (i - (l.values.length + 1))

theorem descend_le_length (p : α → Bool) (t : BinaryTree ρ α) :
    t.descend p ≤ t.values.length := by
  induction t with
  | null => exact Nat.le_refl 0
  | node ref l v r ihl ihr =>
      rw [descend, values_node, List.length_append, List.length_cons]
      split_ifs <;> omega

/-- A descent that goes to the right at all values. -/
theorem descend_of_forall {p : α → Bool} {t : BinaryTree ρ α}
    (h : ∀ a ∈ t.values, p a = true) : t.descend p = t.values.length := by
  induction t with
  | null => rfl
  | node ref l v r ihl ihr =>
      rw [values_node, List.forall_mem_append, List.forall_mem_cons] at h
      rw [descend, if_pos h.2.1, ihr h.2.2, values_node, List.length_append, List.length_cons]
      omega

/-- A descent between the values with `p` and those without. -/
theorem descend_eq_length {p : α → Bool} {t : BinaryTree ρ α} :
    ∀ {xs ys : List α}, t.values = xs ++ ys → (∀ a ∈ xs, p a = true) →
      (∀ a ∈ ys, p a = false) → t.descend p = xs.length := by
  induction t with
  | null =>
      intro xs ys h _ _
      rw [(List.append_eq_nil_iff.mp h.symm).1]
      rfl
  | node ref l v r ihl ihr =>
      intro xs ys h hxs hys
      rw [values_node] at h
      rcases List.append_eq_append_iff.mp h with ⟨zs, rfl, hv⟩ | ⟨zs, hl, rfl⟩
      · cases zs with
        | nil =>
            -- The first value without `p` is the root.
            rw [List.nil_append] at hv
            rw [List.append_nil]
            rw [List.append_nil] at hxs
            rw [descend, if_neg (by rw [hys v (hv ▸ List.mem_cons_self)]; exact Bool.false_ne_true),
              descend_of_forall hxs]
        | cons z zs =>
            rw [List.cons_append, List.cons.injEq] at hv
            rcases hv with ⟨rfl, hr⟩
            rw [List.forall_mem_append, List.forall_mem_cons] at hxs
            rw [descend, if_pos hxs.2.1, ihr hr hxs.2.2 hys, List.length_append, List.length_cons]
            omega
      · rw [List.forall_mem_append, List.forall_mem_cons] at hys
        rw [descend, if_neg (by rw [hys.2.1]; exact Bool.false_ne_true), ihl hl hxs hys.1]

/-- The value at which a descent ends is one where it would go to the left. -/
theorem descend_getElem? {p : α → Bool} {t : BinaryTree ρ α} {a : α}
    (h : t.values[t.descend p]? = some a) : p a = false := by
  induction t with
  | null => cases h
  | node ref l v r ihl ihr =>
      rw [descend, values_node] at h
      split_ifs at h with hp
      · rw [List.getElem?_append_right (by omega)] at h
        have hindex : l.values.length + 1 + r.descend p - l.values.length = r.descend p + 1 := by
          omega
        rw [hindex, List.getElem?_cons_succ] at h
        exact ihr h
      · rcases Nat.lt_or_eq_of_le (descend_le_length p l) with hlt | heq
        · rw [List.getElem?_append_left hlt] at h
          exact ihl h
        · rw [heq, List.getElem?_append_right (Nat.le_refl _), Nat.sub_self,
            List.getElem?_cons_zero, Option.some.injEq] at h
          rw [← h]
          exact Bool.eq_false_iff.mpr hp

/-- A descent turns left at what it passes. -/
theorem descend_passed {p : α → Bool} {t : BinaryTree ρ α} :
    ∀ a ∈ t.passed (t.descend p), p a = false := by
  induction t with
  | null => exact fun a ha => absurd ha List.not_mem_nil
  | node ref l v r ihl ihr =>
      intro a ha
      have hle := descend_le_length p l
      by_cases hp : p v = true
      · rw [descend, if_pos hp, passed, if_neg (by omega), if_neg (by omega)] at ha
        rw [Nat.add_sub_cancel_left] at ha
        exact ihr a ha
      · rw [descend, if_neg hp, passed] at ha
        split_ifs at ha with hlt heq
        · rcases List.mem_cons.mp ha with rfl | ha
          · exact Bool.eq_false_iff.mpr hp
          · exact ihl a ha
        · cases ha
        · exact absurd hle (by omega)

/-- Where all values before a node have `p` and the node has not, a descent ends
    there if and only if it turns left at all nodes behind it. -/
theorem descend_eq_iff {p : α → Bool} {t : BinaryTree ρ α} :
    ∀ {xs ys : List α} {a : α}, t.values = xs ++ a :: ys → (∀ b ∈ xs, p b = true) →
      p a = false → (t.descend p = xs.length ↔ ∀ b ∈ t.passed xs.length, p b = false) := by
  intro xs ys a h hxs ha
  refine ⟨fun heq => heq ▸ descend_passed, ?_⟩
  induction t generalizing xs ys with
  | null => exact absurd h.symm (List.append_ne_nil_of_right_ne_nil _ (List.cons_ne_nil _ _))
  | node ref l v r ihl ihr =>
      intro hpassed
      rw [values_node] at h
      rw [passed] at hpassed
      -- The element is the value of the node, or right of it, or left of it.
      rcases List.append_eq_append_iff.mp h with ⟨zs, rfl, hv⟩ | ⟨zs, hl, hv⟩
      · cases zs with
        | nil =>
            rw [List.nil_append, List.cons.injEq] at hv
            rw [List.append_nil] at hxs ⊢
            rw [descend, hv.1, ha, if_neg Bool.false_ne_true, descend_of_forall hxs]
        | cons z zs =>
            rw [List.cons_append, List.cons.injEq] at hv
            rcases hv with ⟨rfl, hr⟩
            rw [List.forall_mem_append, List.forall_mem_cons] at hxs
            rw [List.length_append, List.length_cons, if_neg (by omega), if_neg (by omega)]
              at hpassed
            have hindex : l.values.length + (zs.length + 1) - (l.values.length + 1) =
                zs.length := by
              omega
            rw [hindex] at hpassed
            rw [descend, if_pos hxs.2.1, ihr hr hxs.2.2 hpassed, List.length_append,
              List.length_cons]
            omega
      · cases zs with
        | nil =>
            rw [List.nil_append, List.cons.injEq] at hv
            rw [List.append_nil] at hl
            rw [descend, ← hv.1, ha, if_neg Bool.false_ne_true, ← hl, descend_of_forall]
            rw [hl]
            exact hxs
        | cons z zs =>
            rw [List.cons_append, List.cons.injEq] at hv
            rcases hv with ⟨rfl, -⟩
            -- To go left, the predicate must fail at the node that is passed.
            rw [hl, if_pos (by simp), List.forall_mem_cons] at hpassed
            rw [descend, hpassed.1, if_neg Bool.false_ne_true, ihl hl hxs hpassed.2]

/-- Only values behind a position are passed on the way to it. -/
theorem mem_of_mem_passed {t : BinaryTree ρ α} :
    ∀ {xs ys : List α} {a : α}, t.values = xs ++ a :: ys → ∀ b ∈ t.passed xs.length, b ∈ ys := by
  induction t with
  | null => exact fun _ b hb => absurd hb List.not_mem_nil
  | node ref l v r ihl ihr =>
      intro xs ys a h b hb
      rw [values_node] at h
      rw [passed] at hb
      rcases List.append_eq_append_iff.mp h with ⟨zs, rfl, hv⟩ | ⟨zs, hl, hv⟩
      · cases zs with
        | nil => simp at hb
        | cons z zs =>
            rw [List.cons_append, List.cons.injEq] at hv
            rw [List.length_append, List.length_cons, if_neg (by omega), if_neg (by omega)] at hb
            have hindex : l.values.length + (zs.length + 1) - (l.values.length + 1) =
                zs.length := by
              omega
            rw [hindex] at hb
            exact ihr hv.2 b hb
      · cases zs with
        | nil => simp [hl] at hb
        | cons z zs =>
            rw [List.cons_append, List.cons.injEq] at hv
            rcases hv with ⟨rfl, rfl⟩
            rw [hl, if_pos (by simp), List.mem_cons] at hb
            rcases hb with rfl | hb
            · exact List.mem_append_right _ List.mem_cons_self
            · exact List.mem_append_left _ (ihl hl b hb)

/-- A tree of some values. -/
def ofList (ref : ρ) : List α → BinaryTree ρ α
  | [] => null
  | a :: as => node ref null a (ofList ref as)

@[simp]
theorem values_ofList (ref : ρ) (as : List α) : (ofList ref as).values = as := by
  induction as with
  | nil => rfl
  | cons a as ih => exact congrArg (List.cons a) ih

/-- In some tree a given value is passed on the way to one before it. -/
theorem exists_passed (ref : ρ) (xs ys zs : List α) (a b : α) :
    ∃ t : BinaryTree ρ α, t.values = xs ++ a :: (ys ++ b :: zs) ∧ b ∈ t.passed xs.length := by
  refine ⟨node ref (ofList ref (xs ++ a :: ys)) b (ofList ref zs), by simp, ?_⟩
  rw [passed, values_ofList, if_pos (by simp)]
  exact List.mem_cons_self

section

variable (less : κ → κ → Bool) (key : α → κ)

/-- The first position at which a key is not behind the value. -/
def lowerBound (t : BinaryTree ρ α) (k : κ) : Nat :=
  t.descend (fun a => less (key a) k)

/-- The first position at which a key is before the value. -/
def upperBound (t : BinaryTree ρ α) (k : κ) : Nat :=
  t.descend (fun a => !less k (key a))

/-- The value before the place for a key. -/
def precursor (t : BinaryTree ρ α) (k : κ) : Option α :=
  match t.upperBound less key k with
  | 0 => none
  | i + 1 => t.values[i]?

/-- The values after an insertion, and the value or the one that is there
    instead. -/
def emplace (t : BinaryTree ρ α) (a : α) : List α × α :=
  let i := t.upperBound less key (key a)
  let inserted := (t.values.take i ++ a :: t.values.drop i, a)
  match t.precursor less key (key a) with
  | some b => if less (key b) (key a) then inserted else (t.values, b)
  | none => inserted

/-- The position of a key, or `none` for the end. -/
def find (t : BinaryTree ρ α) (k : κ) : Option Nat :=
  match t.values[t.lowerBound less key k]? with
  | some a => if less k (key a) then none else some (t.lowerBound less key k)
  | none => none

variable {less key} {t : BinaryTree ρ α}

/-- A value that is there is found if and only if none of the values behind it that
    the search passes is less. -/
theorem find_eq_some_iff {xs ys : List α} {a : α} (h : t.values = xs ++ a :: ys)
    (hxs : ∀ b ∈ xs, less (key b) (key a) = true) (ha : less (key a) (key a) = false) :
    t.find less key (key a) = some xs.length ↔
      ∀ b ∈ t.passed xs.length, less (key b) (key a) = false := by
  rw [← descend_eq_iff h hxs ha]
  unfold find
  constructor
  · intro hfind
    split at hfind
    · split_ifs at hfind with hless
      exact Option.some.inj hfind
    · cases hfind
  · intro hdescend
    have hbound : t.lowerBound less key (key a) = xs.length := hdescend
    have hget : t.values[xs.length]? = some a := by
      rw [h, List.getElem?_append_right (Nat.le_refl _), Nat.sub_self, List.getElem?_cons_zero]
    rw [hbound, hget]
    exact if_neg (by rw [ha]; exact Bool.false_ne_true)

/-- What is found is neither less nor greater. -/
theorem find_some {k : κ} {i : Nat} (h : t.find less key k = some i) :
    ∃ a, t.values[i]? = some a ∧ less (key a) k = false ∧ less k (key a) = false := by
  unfold find at h
  split at h
  · next a ha =>
      split_ifs at h with hless
      cases h
      exact ⟨a, ha, descend_getElem? (p := fun a => less (key a) k) ha, Bool.eq_false_iff.mpr hless⟩
  · cases h

/-- A value is inserted between those that it is not before and those that it is
    before, if the former are less. -/
theorem emplace_eq {xs ys : List α} {a : α} (h : t.values = xs ++ ys)
    (hxs : ∀ b ∈ xs, less (key a) (key b) = false) (hless : ∀ b ∈ xs, less (key b) (key a) = true)
    (hys : ∀ b ∈ ys, less (key a) (key b) = true) :
    t.emplace less key a = (xs ++ a :: ys, a) := by
  have hbound : t.upperBound less key (key a) = xs.length :=
    descend_eq_length h (fun b hb => by rw [hxs b hb]; rfl) (fun b hb => by rw [hys b hb]; rfl)
  have hprecursor : (t.precursor less key (key a)).all (fun b => less (key b) (key a)) = true := by
    unfold precursor
    rw [hbound, h]
    cases hn : xs.length with
    | zero => rfl
    | succ i =>
        -- The value before the place is the last one of the former.
        simp only
        rw [List.getElem?_append_left (by omega), List.getElem?_eq_getElem (by omega)]
        exact hless _ (List.getElem_mem _)
  unfold emplace
  simp only [hbound, h, List.take_left, List.drop_left]
  cases hp : t.precursor less key (key a) with
  | none => rfl
  | some b =>
      rw [hp] at hprecursor
      exact if_pos hprecursor

end

end BinaryTree

end BlogSample
