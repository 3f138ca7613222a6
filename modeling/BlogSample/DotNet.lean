import Mathlib.Data.List.Nodup
import Mathlib.Data.List.Sort

/-!
# The .NET Base Library

The parts of the .NET base library that the samples rest on, each following
its documented behaviour.

A call that throws is an `Except` value, so a caller that does not catch is a
`do` block. The exceptions are told apart by class and carry no message: no
sample reads one.

`List<T>.Sort` is documented as unstable: it leaves the elements in
non-decreasing order and says nothing about equal ones. `ListSort` is any
function that keeps to that, so what is proved about a caller holds whichever
order the runtime picks.

## Main definitions

* `Exn`: The exception classes the samples can meet.
* `maxLength`: How many elements an array has at most.
* `getItem`, `setItem`: An array through its indexer.
* `upTo`: The values of a `for` loop that counts up.
* `ListSort`: A sort that may order equal keys as it likes.
* `groupBy`: LINQ grouping, in the order of first appearance.
* `Dictionary`: Entries with distinct keys, in insertion order.

## Theorems

* `getItem_of_lt`, `setItem_of_lt`: An index that is in range.
* `getItem_append`, `setItem_append`: An index that is given by what stands before it.
* `upTo_cons`, `upTo_of_le`: A loop that goes on, and one that is over.
* `ok_bind`, `bind_eq_ok`: A call that goes on after another one.
* `foldlM_cons_ok`, `foldlM_append_ok`: A loop that has got so far.
* `exists_states`: The states between the rounds of a loop.
* `groupBy_fst_nodup`: Groups have distinct keys.
* `mem_groupBy_fst`: There is a group for exactly the keys that occur.
* `Dictionary.add_eq`: Adding a new key succeeds and appends an entry.
* `Dictionary.item_eq_ok_iff`: The indexer finds exactly the entries.
* `Dictionary.tryGetValue_set`, `Dictionary.count_set`: A dictionary after an
  assignment through the indexer.
* `Dictionary.add_of_none`, `Dictionary.tryGetValue_tryAdd`: A dictionary after
  `Add` of a new key and after `TryAdd`.
* `Dictionary.tryGetValue_remove`, `Dictionary.count_remove`: A dictionary
  without a key.
-/

namespace BlogSample

namespace DotNet

/-- The exception classes the samples can meet. -/
inductive Exn where
  | nullReference
  | argumentOutOfRange
  | argument
  | argumentNull
  | keyNotFound
  | fileNotFound
  | invalidData
  | indexOutOfRange
  | invalidOperation
  | invalidCast
  | divideByZero
  | overflow
  | format
  | io
  | outOfMemory
  | exception
  deriving DecidableEq, Repr

/-- `Array.MaxLength`. -/
def maxLength : Nat := 2147483591

/-- `a[i]` of an array. -/
def getItem {α : Type} (a : List α) (i : Int) : Except Exn α :=
  if i < 0 then throw .indexOutOfRange
  else
    match a[i.toNat]? with
    | none => throw .indexOutOfRange
    | some x => pure x

/-- `a[i] = x` of an array. -/
def setItem {α : Type} (a : List α) (i : Int) (x : α) : Except Exn (List α) :=
  if 0 ≤ i ∧ i < a.length then pure (a.set i.toNat x) else throw .indexOutOfRange

theorem getItem_of_lt {α : Type} {a : List α} {i : Nat} (h : i < a.length) :
    getItem a i = .ok a[i] := by
  rw [getItem, if_neg (Int.not_lt.mpr (Int.natCast_nonneg i)), Int.toNat_natCast,
    List.getElem?_eq_getElem h]
  rfl

theorem setItem_of_lt {α : Type} {a : List α} {i : Nat} (h : i < a.length) (x : α) :
    setItem a i x = .ok (a.set i x) := by
  rw [setItem, if_pos ⟨Int.natCast_nonneg i, Int.ofNat_lt.mpr h⟩, Int.toNat_natCast]
  rfl

theorem getItem_append {α : Type} (a b : List α) (x : α) {i : Int} (hi : i = a.length) :
    getItem (a ++ x :: b) i = .ok x := by
  have hlt : a.length < (a ++ x :: b).length := by
    rw [List.length_append, List.length_cons]
    omega
  rw [hi, getItem_of_lt hlt, List.getElem_append_right (Nat.le_refl _)]
  simp only [Nat.sub_self, List.getElem_cons_zero]

theorem setItem_append {α : Type} (a b : List α) (x y : α) {i : Int} (hi : i = a.length) :
    setItem (a ++ x :: b) i y = .ok (a ++ y :: b) := by
  have hlt : a.length < (a ++ x :: b).length := by
    rw [List.length_append, List.length_cons]
    omega
  rw [hi, setItem_of_lt hlt, List.set_append_right _ _ (Nat.le_refl _), Nat.sub_self,
    List.set_cons_zero]

/-- The values of `i` in `for (int i = lo; i < hi; i++)`. -/
def upTo (lo hi : Int) : List Int :=
  (List.range (hi - lo).toNat).map (fun (k : Nat) => lo + (k : Int))

theorem upTo_of_le {lo hi : Int} (h : hi ≤ lo) : upTo lo hi = [] := by
  rw [upTo, Int.toNat_of_nonpos (by omega)]
  rfl

theorem upTo_cons {lo hi : Int} (h : lo < hi) : upTo lo hi = lo :: upTo (lo + 1) hi := by
  have hlen : (hi - lo).toNat = (hi - (lo + 1)).toNat + 1 := by omega
  rw [upTo, hlen, List.range_succ_eq_map, List.map_cons, List.map_map, upTo]
  refine congrArg₂ List.cons (Int.add_zero lo) (List.map_congr_left (fun k _ => ?_))
  change lo + ((k + 1 : Nat) : Int) = lo + 1 + k
  omega

/-- A call that goes on after one that has returned. -/
theorem ok_bind {α β : Type} (a : α) (f : α → Except Exn β) :
    ((Except.ok a : Except Exn α) >>= f) = f a :=
  rfl

/-- A call that goes on after another one returned only if that one did. -/
theorem bind_eq_ok {α β : Type} {x : Except Exn α} {f : α → Except Exn β} {b : β}
    (h : (x >>= f) = .ok b) : ∃ a, x = .ok a ∧ f a = .ok b := by
  cases x with
  | error e => cases h
  | ok a => exact ⟨a, rfl, h⟩

/-- A loop that has got through its first item. -/
theorem foldlM_cons_ok {α β : Type} {f : β → α → Except Exn β} {s t : β} {a : α}
    (h : f s a = .ok t) (l : List α) : (a :: l).foldlM f s = l.foldlM f t := by
  rw [List.foldlM_cons, h]
  rfl

/-- A loop that has got through the first part of its items. -/
theorem foldlM_append_ok {α β : Type} {f : β → α → Except Exn β} {s t : β} {l : List α}
    (h : l.foldlM f s = .ok t) (l' : List α) : (l ++ l').foldlM f s = l'.foldlM f t := by
  rw [List.foldlM_append, h]
  rfl

/-- The states between the rounds of a loop over consecutive numbers. -/
theorem exists_states {β : Type} {f : β → Nat → Except Exn β} {t : β} (n : Nat) :
    ∀ (i : Nat) (s : β), (List.range' i n).foldlM f s = .ok t →
      ∃ state : Nat → β, state i = s ∧ state (i + n) = t ∧
        ∀ j, i ≤ j → j < i + n → f (state j) j = .ok (state (j + 1)) := by
  induction n with
  | zero =>
      intro i s h
      cases h
      exact ⟨fun _ => t, rfl, rfl, fun j hle hlt => absurd hlt (Nat.not_lt.mpr hle)⟩
  | succ n ih =>
      intro i s h
      rw [List.range'_succ, List.foldlM_cons] at h
      rcases bind_eq_ok h with ⟨s', hround, hrest⟩
      rcases ih (i + 1) s' hrest with ⟨state, hfirst, hlast, hnext⟩
      -- The state before the first round is put in front of the others.
      refine ⟨fun j => if j = i then s else state j, if_pos rfl, ?_, fun j hle hlt => ?_⟩
      · change (if i + (n + 1) = i then s else state (i + (n + 1))) = t
        rw [if_neg (by omega), show i + (n + 1) = i + 1 + n by omega, hlast]
      · change f (if j = i then s else state j) j = .ok (if j + 1 = i then s else state (j + 1))
        rw [if_neg (show j + 1 ≠ i by omega)]
        rcases Nat.eq_or_lt_of_le hle with rfl | hgt
        · rw [if_pos rfl, hfirst]
          exact hround
        · rw [if_neg (by omega)]
          exact hnext j hgt (by omega)

/-- `List<T>.Sort` by an integer key. Equal keys may end up in any order. -/
structure ListSort (α : Type) (key : α → Nat) where
  sort : List α → List α
  perm : ∀ l, (sort l).Perm l
  sorted : ∀ l, (sort l).Pairwise (fun a b => key a ≤ key b)

/-- Insertion sort, which the runtime uses on short lists, is one of the
    orders `List<T>.Sort` may give. -/
def insertionSort (α : Type) (key : α → Nat) : ListSort α key where
  sort := List.insertionSort (fun a b => key a ≤ key b)
  perm := List.perm_insertionSort (fun a b => key a ≤ key b)
  sorted := fun l =>
    have : Std.Total (fun a b : α => key a ≤ key b) := ⟨fun a b => Nat.le_total (key a) (key b)⟩
    have : IsTrans α (fun a b : α => key a ≤ key b) := ⟨fun _ _ _ => Nat.le_trans⟩
    List.pairwise_insertionSort (fun a b => key a ≤ key b) l

/-- `Enumerable.GroupBy`: one group per key, in the order the keys first
    appear, each with its elements in their order. -/
def groupBy {α κ : Type} [DecidableEq κ] (key : α → κ) (l : List α) : List (κ × List α) :=
  (l.map key).eraseDups.map (fun k => (k, l.filter (fun x => key x = k)))

/-- `Dictionary<κ, ν>`: entries in insertion order, no key twice. -/
structure Dictionary (κ ν : Type) where
  entries : List (κ × ν)
  nodup : (entries.map Prod.fst).Nodup

namespace Dictionary

variable {κ ν : Type} [DecidableEq κ]

/-- `new Dictionary<κ, ν>()`. -/
def empty : Dictionary κ ν := ⟨[], List.nodup_nil⟩

/-- `Dictionary.Add`, which throws on a key that is already there. -/
def add (d : Dictionary κ ν) (k : κ) (v : ν) : Except Exn (Dictionary κ ν) :=
  if h : k ∈ d.entries.map Prod.fst then
    throw .argument
  else
    pure ⟨d.entries ++ [(k, v)], by
      rw [List.map_append, List.nodup_append]
      refine ⟨d.nodup, List.nodup_singleton k, fun a ha b hb hab => h ?_⟩
      rw [List.map_cons, List.map_nil, List.mem_singleton] at hb
      subst hab hb
      exact ha⟩

/-- The indexer `d[k]`, which throws on a key that is not there. -/
def item (d : Dictionary κ ν) (k : κ) : Except Exn ν :=
  match d.entries.lookup k with
  | some v => pure v
  | none => throw .keyNotFound

/-- `d.TryGetValue(k, out v)`. -/
def tryGetValue (d : Dictionary κ ν) (k : κ) : Option ν :=
  d.entries.lookup k

/-- `d.Count`. -/
def count (d : Dictionary κ ν) : Nat :=
  d.entries.length

/-- `d[k] = v`, which replaces an entry or adds one. -/
def set (d : Dictionary κ ν) (k : κ) (v : ν) : Dictionary κ ν :=
  if h : k ∈ d.entries.map Prod.fst then
    ⟨d.entries.map (fun e => if e.1 = k then (k, v) else e), by
      have hkeys : (d.entries.map (fun e => if e.1 = k then (k, v) else e)).map Prod.fst
          = d.entries.map Prod.fst := by
        rw [List.map_map]
        refine List.map_congr_left (fun e _ => ?_)
        change (if e.1 = k then (k, v) else e).1 = e.1
        by_cases he : e.1 = k
        · rw [if_pos he, he]
        · rw [if_neg he]
      rw [hkeys]
      exact d.nodup⟩
  else
    ⟨d.entries ++ [(k, v)], by
      rw [List.map_append, List.nodup_append]
      refine ⟨d.nodup, List.nodup_singleton k, fun a ha b hb hab => h ?_⟩
      have hb : b = k := List.mem_singleton.mp hb
      rw [← hb, ← hab]
      exact ha⟩

/-- `d.TryAdd(k, v)`, which leaves a key that is already there alone. -/
def tryAdd (d : Dictionary κ ν) (k : κ) (v : ν) : Dictionary κ ν :=
  match d.add k v with
  | .ok d' => d'
  | .error _ => d

/-- `d.Remove(k)`. -/
def remove (d : Dictionary κ ν) (k : κ) : Dictionary κ ν :=
  ⟨d.entries.filter (fun e => e.1 ≠ k),
    List.Nodup.sublist (List.Sublist.map Prod.fst List.filter_sublist) d.nodup⟩

/-- Adding a new key succeeds and appends its entry. -/
theorem add_eq (d : Dictionary κ ν) (k : κ) (v : ν) (h : k ∉ d.entries.map Prod.fst) :
    ∃ d', d.add k v = .ok d' ∧ d'.entries = d.entries ++ [(k, v)] := by
  rw [add, dif_neg h]
  exact ⟨_, rfl, rfl⟩

theorem lookup_eq_some_iff (l : List (κ × ν)) (hl : (l.map Prod.fst).Nodup) (k : κ) (v : ν) :
    l.lookup k = some v ↔ (k, v) ∈ l := by
  induction l with
  | nil => simp only [List.lookup_nil, reduceCtorEq, List.not_mem_nil]
  | cons p l ih =>
      rcases p with ⟨k', v'⟩
      rw [List.map_cons, List.nodup_cons] at hl
      rw [List.lookup_cons, List.mem_cons, Prod.mk.injEq]
      by_cases hk : k = k'
      · subst hk
        simp only [beq_self_eq_true, Option.some.injEq]
        constructor
        · intro h; exact Or.inl ⟨trivial, h.symm⟩
        · rintro (h | h)
          · exact h.2.symm
          · exact absurd (List.mem_map.mpr ⟨_, h, rfl⟩) hl.1
      · simp only [beq_false_of_ne hk, ih hl.2]
        constructor
        · exact Or.inr
        · rintro (⟨h, -⟩ | h)
          · exact absurd h hk
          · exact h

/-- The indexer finds exactly the entries of the dictionary. -/
theorem item_eq_ok_iff (d : Dictionary κ ν) (k : κ) (v : ν) :
    d.item k = .ok v ↔ (k, v) ∈ d.entries := by
  rw [← lookup_eq_some_iff d.entries d.nodup, item]
  cases d.entries.lookup k with
  | none => simp only [throw, throwThe, MonadExceptOf.throw, reduceCtorEq]
  | some u => simp only [pure, Except.pure, Except.ok.injEq, Option.some.injEq]

theorem tryGetValue_eq_some_iff (d : Dictionary κ ν) (k : κ) (v : ν) :
    d.tryGetValue k = some v ↔ (k, v) ∈ d.entries :=
  lookup_eq_some_iff d.entries d.nodup k v

/-- A key is found if it has an entry. -/
theorem mem_keys_iff (d : Dictionary κ ν) (k : κ) :
    k ∈ d.entries.map Prod.fst ↔ ∃ v, d.tryGetValue k = some v := by
  constructor
  · intro h
    rcases List.mem_map.mp h with ⟨e, he, hk⟩
    refine ⟨e.2, (d.tryGetValue_eq_some_iff k e.2).mpr ?_⟩
    rw [← hk]
    exact he
  · intro h
    rcases h with ⟨v, hv⟩
    exact List.mem_map.mpr ⟨_, (d.tryGetValue_eq_some_iff k v).mp hv, rfl⟩

/-- An assignment is found under its key and changes no other one. -/
theorem tryGetValue_set (d : Dictionary κ ν) (k k' : κ) (v u : ν) :
    (d.set k v).tryGetValue k' = some u ↔
      (k' = k ∧ u = v) ∨ (k' ≠ k ∧ d.tryGetValue k' = some u) := by
  rw [tryGetValue_eq_some_iff, tryGetValue_eq_some_iff]
  unfold set
  -- The entry of the key is replaced, or one is added.
  by_cases h : k ∈ d.entries.map Prod.fst
  · rw [dif_pos h, List.mem_map]
    constructor
    · intro he
      rcases he with ⟨e, he, heq⟩
      by_cases hk : e.1 = k
      · rw [if_pos hk, Prod.mk.injEq] at heq
        exact Or.inl ⟨heq.1.symm, heq.2.symm⟩
      · rw [if_neg hk] at heq
        rw [heq] at hk he
        exact Or.inr ⟨hk, he⟩
    · intro he
      rcases he with ⟨hk, hu⟩ | ⟨hk, he⟩
      · rcases List.mem_map.mp h with ⟨e, he, hek⟩
        refine ⟨e, he, ?_⟩
        rw [if_pos hek, hk, hu]
      · refine ⟨_, he, ?_⟩
        rw [if_neg hk]
  · rw [dif_neg h, List.mem_append, List.mem_singleton, Prod.mk.injEq]
    constructor
    · intro he
      rcases he with he | he
      · refine Or.inr ⟨?_, he⟩
        intro hk
        exact h (List.mem_map.mpr ⟨_, he, hk⟩)
      · exact Or.inl he
    · intro he
      rcases he with he | he
      · exact Or.inr he
      · exact Or.inl he.2

theorem tryGetValue_set_eq (d : Dictionary κ ν) (k k' : κ) (v : ν) :
    (d.set k v).tryGetValue k' = if k' = k then some v else d.tryGetValue k' := by
  refine Option.ext (fun u => ?_)
  rw [tryGetValue_set]
  by_cases hk : k' = k
  · rw [if_pos hk, Option.some.injEq]
    constructor
    · rintro (⟨-, hu⟩ | ⟨hne, -⟩)
      · exact hu.symm
      · exact absurd hk hne
    · exact fun hu => .inl ⟨hk, hu.symm⟩
  · rw [if_neg hk]
    constructor
    · rintro (⟨heq, -⟩ | ⟨-, hu⟩)
      · exact absurd heq hk
      · exact hu
    · exact fun hu => .inr ⟨hk, hu⟩

/-- A new key is found after it was added, and so are the others. -/
theorem add_of_none (d : Dictionary κ ν) {k : κ} (v : ν) (h : d.tryGetValue k = none) :
    ∃ d', d.add k v = .ok d' ∧
      ∀ k', d'.tryGetValue k' = if k' = k then some v else d.tryGetValue k' := by
  have hk : k ∉ d.entries.map Prod.fst := by
    rw [mem_keys_iff, h]
    rintro ⟨u, hu⟩
    cases hu
  have hset : d.add k v = .ok (d.set k v) := by
    unfold add set
    rw [dif_neg hk, dif_neg hk]
    rfl
  exact ⟨_, hset, fun k' => d.tryGetValue_set_eq k k' v⟩

/-- After `TryAdd` a key has the value that it had, or else the new one. -/
theorem tryGetValue_tryAdd (d : Dictionary κ ν) (k k' : κ) (v : ν) :
    (d.tryAdd k v).tryGetValue k' =
      if k' = k then some ((d.tryGetValue k).getD v) else d.tryGetValue k' := by
  unfold tryAdd
  cases h : d.tryGetValue k with
  | none =>
      rcases d.add_of_none v h with ⟨d', hadd, hd'⟩
      rw [hadd]
      exact hd' k'
  | some u =>
      have hadd : d.add k v = .error .argument := by
        unfold add
        rw [dif_pos ((d.mem_keys_iff k).mpr ⟨u, h⟩)]
        rfl
      rw [hadd]
      by_cases hk : k' = k
      · rw [if_pos hk, hk]
        exact h
      · rw [if_neg hk]

/-- An assignment to a new key adds an entry. -/
theorem count_set (d : Dictionary κ ν) (k : κ) (v : ν) :
    (d.set k v).count = if d.tryGetValue k = none then d.count + 1 else d.count := by
  have hmem := d.mem_keys_iff k
  unfold set count
  by_cases h : k ∈ d.entries.map Prod.fst
  · rcases hmem.mp h with ⟨u, hu⟩
    rw [dif_pos h, List.length_map, hu, if_neg (Option.some_ne_none u)]
  · have hnone : d.tryGetValue k = none := by
      cases hu : d.tryGetValue k with
      | none => rfl
      | some u => exact absurd (hmem.mpr ⟨u, hu⟩) h
    rw [dif_neg h, List.length_append, hnone, if_pos rfl]
    rfl

/-- A key that is removed is not found, and the others are. -/
theorem tryGetValue_remove (d : Dictionary κ ν) (k k' : κ) (u : ν) :
    (d.remove k).tryGetValue k' = some u ↔ k' ≠ k ∧ d.tryGetValue k' = some u := by
  rw [tryGetValue_eq_some_iff, tryGetValue_eq_some_iff]
  unfold remove
  rw [List.mem_filter, decide_eq_true_eq]
  exact and_comm

/-- Removing a key that is there takes one entry. -/
theorem count_remove (d : Dictionary κ ν) (k : κ) (h : ∃ v, d.tryGetValue k = some v) :
    (d.remove k).count + 1 = d.count := by
  have hmem := (d.mem_keys_iff k).mpr h
  have hkeys : (d.remove k).entries.map Prod.fst = (d.entries.map Prod.fst).erase k := by
    rw [List.Nodup.erase_eq_filter d.nodup k, List.filter_map]
    unfold remove
    refine congrArg (List.map Prod.fst) (List.filter_congr (fun e _ => ?_))
    by_cases he : e.1 = k
    · simp [he]
    · simp [he]
  have hlen := congrArg List.length hkeys
  rw [List.length_map, List.length_erase_of_mem hmem, List.length_map] at hlen
  have hpos := List.length_pos_of_mem hmem
  rw [List.length_map] at hpos
  unfold count
  omega

end Dictionary

theorem nodup_eraseDups {α : Type} [DecidableEq α] : ∀ l : List α, l.eraseDups.Nodup
  | [] => List.nodup_nil
  | a :: l => by
      have hlt : (l.filter (fun b => !b == a)).length < l.length + 1 :=
        Nat.lt_succ_of_le (List.length_filter_le _ _)
      rw [List.eraseDups_cons, List.nodup_cons]
      refine ⟨?_, nodup_eraseDups _⟩
      rw [List.mem_eraseDups, List.mem_filter]
      simp only [beq_self_eq_true, Bool.not_true, Bool.false_eq_true, and_false, not_false_eq_true]
termination_by l => l.length

section GroupBy

variable {α κ : Type} [DecidableEq κ] (key : α → κ) (l : List α)

/-- No key has two groups. -/
theorem groupBy_fst_nodup : ((groupBy key l).map Prod.fst).Nodup := by
  rw [groupBy, List.map_map]
  change ((l.map key).eraseDups.map id).Nodup
  rw [List.map_id]
  exact nodup_eraseDups _

/-- There is a group for exactly the keys that occur. -/
theorem mem_groupBy_fst (k : κ) : k ∈ (groupBy key l).map Prod.fst ↔ ∃ x ∈ l, key x = k := by
  rw [groupBy, List.map_map]
  change k ∈ (l.map key).eraseDups.map id ↔ _
  rw [List.map_id, List.mem_eraseDups, List.mem_map]

end GroupBy

end DotNet

end BlogSample
