import Mathlib.Data.List.Basic

/-!
# Arrays of C

Arrays of a fixed size that are read and written by signed indices. An access
outside the array has no result: `none` stands for the undefined behaviour of
the program, and a run that gets there has no next state. What the cells hold
before the first write is arbitrary.

`scan` is the loop every lookup of such a program is: the first index below a
bound whose cell passes a test, or `-1`. Two facts about it are used. When the
loop comes to an end, it has the value one expects; and it does come to an end
when the bound is within the array.

## Main definitions

* `CArray`: Arrays of a fixed size.
* `read`, `write`: Accesses, with the check the language does not make.
* `set`: The array after a write.
* `scan`: A linear search.
* `fill`: A loop of writes.

## Theorems

* `read_eq_some`, `write_eq_some`: What a successful access was.
* `scan_eq_some`: What a search that ended has found.
* `scan_total`: A search within the array ends.
* `foldlM_total`: A loop of partial steps, by its invariant.
-/

namespace BlogSample

/-- Arrays of `n` cells. Cells from `n` on are never looked at. -/
structure CArray (α : Type) (n : Nat) where
  cell : Nat → α

namespace CArray

variable {α : Type} {n : Nat}

/-- `a[i]`. -/
def read (a : CArray α n) (i : Int) : Option α :=
  if 0 ≤ i ∧ i < n then some (a.cell i.toNat) else none

/-- The array with one cell changed. -/
def set (a : CArray α n) (i : Nat) (v : α) : CArray α n :=
  ⟨fun j => if j = i then v else a.cell j⟩

/-- `a[i] = v`. -/
def write (a : CArray α n) (i : Int) (v : α) : Option (CArray α n) :=
  if 0 ≤ i ∧ i < n then some (a.set i.toNat v) else none

/-- The search from index `i` on, for `k` more steps. -/
def scanFrom (a : CArray α n) (p : α → Bool) : Nat → Nat → Option Int
  | _, 0 => some (-1)
  | i, k + 1 => do
      let v ← a.read i
      if p v then some i else scanFrom a p (i + 1) k

/-- `for (i = 0; i < k; i++) if (p(a[i])) return i; return -1;` -/
def scan (a : CArray α n) (p : α → Bool) (k : Int) : Option Int :=
  scanFrom a p 0 k.toNat

@[simp]
theorem cell_set_self (a : CArray α n) (i : Nat) (v : α) : (a.set i v).cell i = v :=
  if_pos rfl

theorem cell_set_of_ne (a : CArray α n) {i j : Nat} (h : j ≠ i) (v : α) :
    (a.set i v).cell j = a.cell j :=
  if_neg h

theorem read_of_lt (a : CArray α n) {i : Nat} (h : i < n) : a.read i = some (a.cell i) := by
  rw [read, if_pos ⟨by omega, by omega⟩]
  rfl

theorem write_of_lt (a : CArray α n) {i : Nat} (h : i < n) (v : α) :
    a.write i v = some (a.set i v) := by
  rw [write, if_pos ⟨by omega, by omega⟩]
  rfl

theorem read_eq_some {a : CArray α n} {i : Int} {v : α} (h : a.read i = some v) :
    ∃ k : Nat, i = k ∧ k < n ∧ v = a.cell k := by
  rw [read] at h
  by_cases hi : 0 ≤ i ∧ i < n
  · rw [if_pos hi] at h
    exact ⟨i.toNat, by omega, by omega, (Option.some.inj h).symm⟩
  · rw [if_neg hi] at h
    cases h

theorem write_eq_some {a b : CArray α n} {i : Int} {v : α} (h : a.write i v = some b) :
    ∃ k : Nat, i = k ∧ k < n ∧ b = a.set k v := by
  rw [write] at h
  by_cases hi : 0 ≤ i ∧ i < n
  · rw [if_pos hi] at h
    exact ⟨i.toNat, by omega, by omega, (Option.some.inj h).symm⟩
  · rw [if_neg hi] at h
    cases h

theorem scanFrom_eq_some {a : CArray α n} {p : α → Bool} {k : Nat} {r : Int} :
    ∀ {i : Nat}, scanFrom a p i k = some r →
      (∃ j : Nat, r = j ∧ i ≤ j ∧ j < i + k ∧ p (a.cell j) = true ∧
        ∀ l, i ≤ l → l < j → p (a.cell l) = false) ∨
      (r = -1 ∧ ∀ l, i ≤ l → l < i + k → p (a.cell l) = false) := by
  induction k with
  | zero =>
      intro i h
      exact Or.inr ⟨(Option.some.inj h).symm, fun l hl hl' => by omega⟩
  | succ k ih =>
      intro i h
      rw [scanFrom] at h
      cases hv : a.read i with
      | none =>
          rw [hv] at h
          cases h
      | some v =>
          rcases read_eq_some hv with ⟨i', hi', -, rfl⟩
          obtain rfl : i = i' := by omega
          rw [hv] at h
          change (if p (a.cell i) = true then some (i : Int)
            else scanFrom a p (i + 1) k) = some r at h
          by_cases hp : p (a.cell i) = true
          · rw [if_pos hp] at h
            refine Or.inl ⟨i, (Option.some.inj h).symm, Nat.le_refl i, by omega, hp, ?_⟩
            exact fun l hl hl' => by omega
          · rw [if_neg hp] at h
            -- The cell at hand fails the test, and the rest is scanned.
            have hfirst : ∀ l, i ≤ l → ¬ i + 1 ≤ l → p (a.cell l) = false := by
              intro l hl hl'
              obtain rfl : l = i := by omega
              exact Bool.not_eq_true _ ▸ hp
            rcases ih h with ⟨j, hr, hij, hj, hpj, hmin⟩ | ⟨hr, hall⟩
            · refine Or.inl ⟨j, hr, by omega, by omega, hpj, fun l hl hl' => ?_⟩
              by_cases hli : i + 1 ≤ l
              · exact hmin l hli hl'
              · exact hfirst l hl hli
            · refine Or.inr ⟨hr, fun l hl hl' => ?_⟩
              by_cases hli : i + 1 ≤ l
              · exact hall l hli (by omega)
              · exact hfirst l hl hli

/-- What a search that ended has found. -/
theorem scan_eq_some {a : CArray α n} {p : α → Bool} {k r : Int} (h : a.scan p k = some r) :
    (∃ j : Nat, r = j ∧ (j : Int) < k ∧ p (a.cell j) = true ∧
      ∀ l : Nat, l < j → p (a.cell l) = false) ∨
    (r = -1 ∧ ∀ l : Nat, (l : Int) < k → p (a.cell l) = false) := by
  rcases scanFrom_eq_some h with ⟨j, hr, -, hj, hp, hmin⟩ | ⟨hr, hall⟩
  · exact Or.inl ⟨j, hr, by omega, hp, fun l hl => hmin l (Nat.zero_le l) hl⟩
  · exact Or.inr ⟨hr, fun l hl => hall l (Nat.zero_le l) (by omega)⟩

theorem scanFrom_total (a : CArray α n) (p : α → Bool) (k : Nat) :
    ∀ i, i + k ≤ n → ∃ r, scanFrom a p i k = some r := by
  induction k with
  | zero => exact fun i _ => ⟨-1, rfl⟩
  | succ k ih =>
      intro i h
      rw [scanFrom, read_of_lt a (by omega)]
      by_cases hp : p (a.cell i) = true
      · exact ⟨i, if_pos hp⟩
      · rcases ih (i + 1) (by omega) with ⟨r, hr⟩
        exact ⟨r, (if_neg hp).trans hr⟩

/-- A search within the array ends. -/
theorem scan_total (a : CArray α n) (p : α → Bool) {k : Int} (h : k ≤ n) :
    ∃ r, a.scan p k = some r :=
  scanFrom_total a p k.toNat 0 (by omega)

/-- `a[i] = v` for each index of a list. -/
def fill (a : CArray α n) (is : List Nat) (v : α) : Option (CArray α n) :=
  is.foldlM (fun (a : CArray α n) (i : Nat) => a.write i v) a

/-- Filling within the array, cell by cell. -/
theorem fill_total (v : α) (is : List Nat) :
    ∀ a : CArray α n, (∀ i ∈ is, i < n) →
      ∃ b, a.fill is v = some b ∧ ∀ j, b.cell j = if j ∈ is then v else a.cell j := by
  induction is with
  | nil => exact fun a _ => ⟨a, rfl, fun j => (if_neg List.not_mem_nil).symm⟩
  | cons i is ih =>
      intro a h
      rcases ih (a.set i v) (fun j hj => h j (List.mem_cons_of_mem i hj)) with ⟨b, hb, hcell⟩
      refine ⟨b, ?_, fun j => ?_⟩
      · rw [fill, List.foldlM_cons, write_of_lt a (h i List.mem_cons_self)]
        exact hb
      · rw [hcell j]
        by_cases hj : j ∈ is
        · rw [if_pos hj, if_pos (List.mem_cons_of_mem i hj)]
        · rw [if_neg hj]
          by_cases hji : j = i
          · rw [hji, cell_set_self, if_pos List.mem_cons_self]
          · rw [cell_set_of_ne _ hji, if_neg (fun h => (List.mem_cons.mp h).elim hji hj)]

end CArray

/-! ### Loops -/

/-- A loop whose every round has a result, and keeps an invariant, has a
    result that keeps it. -/
theorem foldlM_total {β σ : Type} {f : σ → β → Option σ} (P : σ → Prop) (l : List β)
    (hstep : ∀ s, P s → ∀ b ∈ l, ∃ t, f s b = some t ∧ P t) :
    ∀ s, P s → ∃ t, l.foldlM f s = some t ∧ P t := by
  induction l with
  | nil => exact fun s hs => ⟨s, rfl, hs⟩
  | cons b l ih =>
      intro s hs
      rcases hstep s hs b List.mem_cons_self with ⟨t, ht, hP⟩
      rcases ih (fun s hs c hc => hstep s hs c (List.mem_cons_of_mem b hc)) t hP with ⟨u, hu, hPu⟩
      refine ⟨u, ?_, hPu⟩
      rw [List.foldlM_cons, ht]
      exact hu

theorem mapM_total {β γ : Type} {f : β → Option γ} (l : List β)
    (h : ∀ b ∈ l, ∃ c, f b = some c) : ∃ cs, l.mapM f = some cs := by
  induction l with
  | nil => exact ⟨[], List.mapM_nil⟩
  | cons b l ih =>
      rcases h b List.mem_cons_self with ⟨c, hc⟩
      rcases ih (fun b hb => h b (List.mem_cons_of_mem _ hb)) with ⟨cs, hcs⟩
      exact ⟨c :: cs, by rw [List.mapM_cons, hc, hcs]; rfl⟩

end BlogSample
