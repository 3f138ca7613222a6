import Mathlib.Data.List.Basic
import Mathlib.Data.List.Nodup

/-!
# Most Recently Used First

What an LRU cache is for: a list of entries in the order of their last use.
A hit moves its entry to the front, and a new entry pushes the last one out
when there is no room.

`Recent` is what the list says about the calls so far. Every entry has the
value of the last `Put` of its key, and an entry before another one was used
after the last use of that one, so the last entry is the one whose last use
is oldest.

## Main definitions

* `Op`: The calls.
* `MruList`: Entries, the most recently used first.
* `LastPut`, `UsedAfter`: What a list of calls says about keys.
* `Recent`: What the entries have to do with the calls.

## Theorems

* `filter_split`, `lookup_split`: An entry of the list and what is around it.
* `Recent.touch`: An entry is moved or put to the front.
* `Recent.step`, `Recent.run`: One call, and all of them.
-/

namespace BlogSample

namespace LruAlgorithm

/-- The calls of a cache. -/
inductive Op (κ υ : Type) where
  | get (key : κ)
  | put (key : κ) (value : υ)
  deriving DecidableEq

/-- The key of a call. -/
def Op.key {κ υ : Type} : Op κ υ → κ
  | .get key => key
  | .put key _ => key

/-- Entries, the most recently used first. -/
abbrev MruList (κ υ : Type) : Type := List (κ × υ)

namespace MruList

variable {κ υ : Type} [DecidableEq κ]

/-- A hit moves the entry to the front. -/
def get (key : κ) (l : MruList κ υ) : Option υ × MruList κ υ :=
  match l.lookup key with
  | some value => (some value, (key, value) :: l.filter (fun e => e.1 ≠ key))
  | none => (none, l)

/-- The entry is put to the front. A new one pushes out the last one if there
    is no room. -/
def put (capacity : Nat) (key : κ) (value : υ) (l : MruList κ υ) : MruList κ υ :=
  if key ∈ l.map Prod.fst then (key, value) :: l.filter (fun e => e.1 ≠ key)
  else if l.length = capacity then (key, value) :: l.dropLast
  else (key, value) :: l

/-- A call: what is found, if anything, and the entries after it. -/
def step (capacity : Nat) (op : Op κ υ) (l : MruList κ υ) : Option υ × MruList κ υ :=
  match op with
  | .get key => l.get key
  | .put key value => (none, l.put capacity key value)

/-- Some calls: what each of them finds, and the entries after them. -/
def run (capacity : Nat) : List (Op κ υ) → MruList κ υ → List (Option υ) × MruList κ υ
  | [], l => ([], l)
  | op :: ops, l =>
      let r := l.step capacity op
      let s := run capacity ops r.2
      (r.1 :: s.1, s.2)

theorem get_hit {key : κ} {value : υ} {l : MruList κ υ} (h : l.lookup key = some value) :
    l.get key = (some value, (key, value) :: l.filter (fun e => e.1 ≠ key)) := by
  unfold get
  rw [h]

theorem get_miss {key : κ} {l : MruList κ υ} (h : l.lookup key = none) :
    l.get key = (none, l) := by
  unfold get
  rw [h]

theorem put_hit {capacity : Nat} {key : κ} {l : MruList κ υ} (h : key ∈ l.map Prod.fst)
    (value : υ) : l.put capacity key value = (key, value) :: l.filter (fun e => e.1 ≠ key) := by
  unfold put
  rw [if_pos h]

theorem put_full {capacity : Nat} {key : κ} {l : MruList κ υ} (h : key ∉ l.map Prod.fst)
    (hfull : l.length = capacity) (value : υ) :
    l.put capacity key value = (key, value) :: l.dropLast := by
  unfold put
  rw [if_neg h, if_pos hfull]

theorem put_room {capacity : Nat} {key : κ} {l : MruList κ υ} (h : key ∉ l.map Prod.fst)
    (hroom : l.length ≠ capacity) (value : υ) :
    l.put capacity key value = (key, value) :: l := by
  unfold put
  rw [if_neg h, if_neg hroom]

/-- Filtering a key leaves what is around its entry. -/
theorem filter_split {key : κ} {value : υ} {l₁ l₂ : MruList κ υ}
    (hn : ((l₁ ++ (key, value) :: l₂).map Prod.fst).Nodup) :
    (l₁ ++ (key, value) :: l₂).filter (fun e => e.1 ≠ key) = l₁ ++ l₂ := by
  rw [List.map_append, List.map_cons, List.nodup_append] at hn
  rcases hn with ⟨-, hback, hdisj⟩
  have hleft : l₁.filter (fun e => e.1 ≠ key) = l₁ := by
    refine List.filter_eq_self.mpr (fun e he => decide_eq_true ?_)
    exact hdisj e.1 (List.mem_map.mpr ⟨e, he, rfl⟩) key List.mem_cons_self
  have hright : l₂.filter (fun e => e.1 ≠ key) = l₂ := by
    refine List.filter_eq_self.mpr (fun e he => decide_eq_true ?_)
    intro heq
    exact (List.nodup_cons.mp hback).1 (List.mem_map.mpr ⟨e, he, heq⟩)
  rw [List.filter_append, List.filter_cons_of_neg (by simp), hleft, hright]

/-- An entry of the list is found. -/
theorem lookup_of_split {key : κ} {value : υ} {l₁ l₂ : MruList κ υ}
    (hn : ((l₁ ++ (key, value) :: l₂).map Prod.fst).Nodup) :
    (l₁ ++ (key, value) :: l₂).lookup key = some value := by
  rw [List.map_append, List.map_cons, List.nodup_append] at hn
  refine List.lookup_eq_some_iff.mpr ⟨l₁, l₂, rfl, fun e he => ?_⟩
  have hne := hn.2.2 e.1 (List.mem_map.mpr ⟨e, he, rfl⟩) key List.mem_cons_self
  exact bne_iff_ne.mpr (Ne.symm hne)

/-- An entry that is found is somewhere in the list. -/
theorem lookup_split {key : κ} {value : υ} {l : MruList κ υ} (hn : (l.map Prod.fst).Nodup)
    (h : l.lookup key = some value) :
    ∃ l₁ l₂, l = l₁ ++ (key, value) :: l₂ ∧ l.filter (fun e => e.1 ≠ key) = l₁ ++ l₂ := by
  rcases List.lookup_eq_some_iff.mp h with ⟨l₁, l₂, hl, -⟩
  refine ⟨l₁, l₂, hl, ?_⟩
  rw [hl] at hn ⊢
  exact filter_split hn

/-- A key is found if there is an entry with it. -/
theorem lookup_isSome_iff {key : κ} {l : MruList κ υ} :
    (∃ value, l.lookup key = some value) ↔ key ∈ l.map Prod.fst := by
  rw [← Option.isSome_iff_exists, List.lookup_isSome_iff, List.mem_map]
  refine exists_congr (fun e => and_congr_right (fun _ => ?_))
  rw [beq_iff_eq]
  exact eq_comm

end MruList

section History

variable {κ υ : Type}

/-- The value of the last `Put` of a key. -/
def LastPut (ops : List (Op κ υ)) (key : κ) (value : υ) : Prop :=
  ∃ before after, ops = before ++ .put key value :: after ∧ ∀ v, .put key v ∉ after

/-- After the last call with the key `b` there is one with the key `a`. -/
def UsedAfter (ops : List (Op κ υ)) (a b : κ) : Prop :=
  ∃ before op after, ops = before ++ op :: after ∧ op.key = a ∧
    ∀ o ∈ op :: after, o.key ≠ b

theorem LastPut.append {ops : List (Op κ υ)} {key : κ} {value : υ} (h : LastPut ops key value)
    {op : Op κ υ} (hop : ∀ v, op ≠ .put key v) : LastPut (ops ++ [op]) key value := by
  rcases h with ⟨before, after, hops, hafter⟩
  refine ⟨before, after ++ [op], ?_, ?_⟩
  · rw [hops, List.append_assoc, List.cons_append]
  · intro v hv
    rcases List.mem_append.mp hv with hv | hv
    · exact hafter v hv
    · exact hop v (List.mem_singleton.mp hv).symm

theorem UsedAfter.append {ops : List (Op κ υ)} {a b : κ} (h : UsedAfter ops a b) {op : Op κ υ}
    (hop : op.key ≠ b) : UsedAfter (ops ++ [op]) a b := by
  rcases h with ⟨before, o, after, hops, ho, hafter⟩
  refine ⟨before, o, after ++ [op], ?_, ho, ?_⟩
  · rw [hops, List.append_assoc, List.cons_append]
  · intro o' ho'
    rcases List.mem_append.mp (show o' ∈ (o :: after) ++ [op] from ho') with ho' | ho'
    · exact hafter o' ho'
    · rw [List.mem_singleton.mp ho']
      exact hop

/-- What the entries have to do with the calls: no key twice, no more entries
    than there is room for, the values last put, and the order of the last
    uses. -/
structure Recent (capacity : Nat) (ops : List (Op κ υ)) (l : MruList κ υ) : Prop where
  keys : (l.map Prod.fst).Nodup
  room : l.length ≤ capacity
  values : ∀ e ∈ l, LastPut ops e.1 e.2
  order : l.Pairwise (fun a b => UsedAfter ops a.1 b.1)

theorem Recent.nil (capacity : Nat) (ops : List (Op κ υ)) :
    Recent capacity ops ([] : MruList κ υ) :=
  ⟨List.nodup_nil, Nat.zero_le capacity, fun _ he => absurd he List.not_mem_nil, .nil⟩

/-- The entry of a call goes to the front of some of the others. -/
theorem Recent.touch {capacity : Nat} {ops : List (Op κ υ)} {l l' : MruList κ υ} {op : Op κ υ}
    {value : υ} (h : Recent capacity ops l) (hsub : l'.Sublist l)
    (hkey : op.key ∉ l'.map Prod.fst) (hroom : l'.length < capacity)
    (hvalue : LastPut (ops ++ [op]) op.key value) :
    Recent capacity (ops ++ [op]) ((op.key, value) :: l') := by
  -- The others are as recent as before, since the key is none of theirs.
  have hne : ∀ e ∈ l', op.key ≠ e.1 := by
    intro e he heq
    exact hkey (List.mem_map.mpr ⟨e, he, heq.symm⟩)
  constructor
  · exact List.nodup_cons.mpr ⟨hkey, h.keys.sublist (hsub.map Prod.fst)⟩
  · exact hroom
  · intro e he
    rcases List.mem_cons.mp he with he | he
    · rw [he]
      exact hvalue
    · refine (h.values e (hsub.subset he)).append ?_
      intro v hv
      refine hne e he ?_
      rw [hv]
      rfl
  · refine List.pairwise_cons.mpr ⟨?_, ?_⟩
    · intro e he
      refine ⟨ops, op, [], rfl, rfl, ?_⟩
      intro o ho
      rw [List.mem_singleton.mp ho]
      exact hne e he
    · refine (h.order.sublist hsub).imp_of_mem ?_
      intro a b _ hb hab
      exact hab.append (hne b hb)

variable [DecidableEq κ]

/-- A call keeps the entries in order. -/
theorem Recent.step {capacity : Nat} (hcap : 1 ≤ capacity) {ops : List (Op κ υ)}
    {l : MruList κ υ} (h : Recent capacity ops l) (op : Op κ υ) :
    Recent capacity (ops ++ [op]) (l.step capacity op).2 := by
  -- An entry that is there makes room for itself.
  have hhit : ∀ value' value, l.lookup op.key = some value' →
      LastPut (ops ++ [op]) op.key value →
      Recent capacity (ops ++ [op]) ((op.key, value) :: l.filter (fun e => e.1 ≠ op.key)) := by
    intro value' value hlookup hvalue
    rcases MruList.lookup_split h.keys hlookup with ⟨l₁, l₂, hl, hfilter⟩
    refine h.touch List.filter_sublist ?_ ?_ hvalue
    · intro hmem
      rcases List.mem_map.mp hmem with ⟨e, he, heq⟩
      exact of_decide_eq_true (List.mem_filter.mp he).2 heq
    · have hroom := h.room
      rw [hl, List.length_append, List.length_cons] at hroom
      rw [hfilter, List.length_append]
      omega
  have hput : ∀ key value, op = .put key value → LastPut (ops ++ [op]) op.key value := by
    intro key value hop
    refine ⟨ops, [], ?_, fun v => List.not_mem_nil⟩
    rw [hop]
    rfl
  cases op with
  | get key =>
      change Recent capacity _ (l.get key).2
      cases hlookup : l.lookup key with
      | none =>
          rw [MruList.get_miss hlookup]
          -- A miss is no use of any entry.
          have hne : ∀ e ∈ l, key ≠ e.1 := by
            intro e he heq
            have hmem : key ∈ l.map Prod.fst := List.mem_map.mpr ⟨e, he, heq.symm⟩
            rcases MruList.lookup_isSome_iff.mpr hmem with ⟨v, hv⟩
            rw [hlookup] at hv
            cases hv
          refine ⟨h.keys, h.room, ?_, ?_⟩
          · intro e he
            exact (h.values e he).append (fun v hv => by cases hv)
          · refine h.order.imp_of_mem ?_
            intro a b _ hb hab
            exact hab.append (hne b hb)
      | some value =>
          rw [MruList.get_hit hlookup]
          refine hhit value value hlookup ?_
          rcases MruList.lookup_split h.keys hlookup with ⟨l₁, l₂, hl, -⟩
          have hmem : (key, value) ∈ l := by
            rw [hl]
            exact List.mem_append_right _ List.mem_cons_self
          exact (h.values _ hmem).append (fun v hv => by cases hv)
  | put key value =>
      change Recent capacity _ (l.put capacity key value)
      by_cases hmem : key ∈ l.map Prod.fst
      · rcases MruList.lookup_isSome_iff.mpr hmem with ⟨value', hlookup⟩
        rw [MruList.put_hit hmem]
        exact hhit value' value hlookup (hput key value rfl)
      · by_cases hfull : l.length = capacity
        · rw [MruList.put_full hmem hfull]
          refine h.touch (List.dropLast_sublist l) ?_ ?_ (hput key value rfl)
          · intro hmem'
            exact hmem (((List.dropLast_sublist l).map Prod.fst).subset hmem')
          · rw [List.length_dropLast]
            omega
        · rw [MruList.put_room hmem hfull]
          exact h.touch (List.Sublist.refl l) hmem (Nat.lt_of_le_of_ne h.room hfull)
            (hput key value rfl)

/-- So do any number of calls. -/
theorem Recent.run {capacity : Nat} (hcap : 1 ≤ capacity) (ops' : List (Op κ υ)) :
    ∀ {ops : List (Op κ υ)} {l : MruList κ υ}, Recent capacity ops l →
      Recent capacity (ops ++ ops') (MruList.run capacity ops' l).2 := by
  induction ops' with
  | nil =>
      intro ops l h
      rw [List.append_nil]
      exact h
  | cons op ops' ih =>
      intro ops l h
      rw [← List.singleton_append, ← List.append_assoc]
      exact ih (h.step hcap op)

end History

end LruAlgorithm

end BlogSample
