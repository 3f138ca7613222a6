import BlogSample.Theory.PriorityQueue
import BlogSample.Theory.ShortestPath
import Mathlib.Algebra.BigOperators.Group.Finset.Basic
import Mathlib.Algebra.Order.BigOperators.Group.Finset
import Mathlib.Logic.Function.Iterate

/-!
# Searching by Relaxation

A search that takes the vertex of least label out of a queue and relaxes the
edges to vertices that have not been taken out yet. A vertex may be in the
queue several times, with the label it had each time; all its entries are
taken out in the end, and the later ones relax the edges again.

Labels are added by any function, so that the search of a program whose
additions overflow is one of these. What is found out about labels supposes
that the sums are exact where they are compared. A vertex that is labelled is
also marked with a note of where the label comes from.

## Main definitions

* `Search`: The queue, the vertices taken out, the labels and the marks.
* `relax`, `expand`, `next`: An edge, a vertex, a step.
* `Exact`: The sums that the next step compares are exact.
* `Inv`: What holds as long as sums are exact.

## Theorems

* `expand_expanded`, `next_change`, `count_next`: What a step does to labels and
  entries.
* `potential_next_lt`: Every step brings the search closer to its end.
* `exists_finished`: The search ends, whatever the sums are.
* `Inv.next`: An exact step keeps the invariant.
* `Inv.label_le`, `Inv.label_eq_top_iff`, `Inv.isDistance`: The labels at the
  end.
-/

namespace BlogSample

namespace Relaxation

open ShortestPath

universe u v w

/-- The state of a search. -/
structure Search (σ : Type u) (V : Type v) (ρ : Type w) where
  queue : σ
  visited : Finset V
  label : V → Int
  mark : V → ρ

section

variable {σ : Type u} {V : Type v} {ρ : Type w} [DecidableEq V] (P : PriorityQueue σ V Int)
  (add : Int → Int → Int) (note : V → Int → ρ)

/-- Relax an edge out of a vertex that was taken out with a label. -/
def relax (cur : V) (val : Int) (s : Search σ V ρ) (e : V × Int) : Search σ V ρ :=
  if e.1 ∈ s.visited then s
  else if add val e.2 < s.label e.1 then
    { s with
      queue := P.enqueue s.queue e.1 (add val e.2)
      label := Function.update s.label e.1 (add val e.2)
      mark := Function.update s.mark e.1 (note cur (add val e.2)) }
  else s

/-- Relax the edges out of a vertex. -/
def expand (G : Graph V) (cur : V) (val : Int) (s : Search σ V ρ) : Search σ V ρ :=
  (G cur).foldl (relax P add note cur val) { s with visited := insert cur s.visited }

/-- Take out a vertex and relax its edges. -/
def next (G : Graph V) (s : Search σ V ρ) : Search σ V ρ :=
  match P.tryDequeue s.queue with
  | some ((cur, val), q) => expand P add note G cur val { s with queue := q }
  | none => s

/-- The search before the first step. -/
def start (src : V) (top : Int) (mark : V → ρ) : Search σ V ρ where
  queue := P.enqueue P.empty src 0
  visited := ∅
  label := Function.update (fun _ => top) src 0
  mark := mark

/-- The sums that the next step compares are exact. -/
def Exact (G : Graph V) (s : Search σ V ρ) : Prop :=
  ∀ cur val q, P.tryDequeue s.queue = some ((cur, val), q) →
    ∀ e ∈ G cur, e.1 ∉ insert cur s.visited → add val e.2 = val + e.2

/-! ### What a step does -/

/-- What relaxing some edges out of a vertex does. -/
structure Expanded (cur : V) (val : Int) (edges : List (V × Int)) (s t : Search σ V ρ) : Prop where
  visited : t.visited = s.visited
  change (v : V) : (t.label v = s.label v ∧ t.mark v = s.mark v) ∨
    (v ∉ s.visited ∧ t.label v < s.label v ∧ (v, t.label v) ∈ P.entries t.queue ∧
      t.mark v = note cur (t.label v) ∧ ∃ w, (v, w) ∈ edges ∧ t.label v = add val w)
  relaxed : ∀ e ∈ edges, e.1 ∉ s.visited → t.label e.1 ≤ add val e.2
  kept : P.entries s.queue ≤ P.entries t.queue
  entry : ∀ x ∈ P.entries t.queue, x ∈ P.entries s.queue ∨
    (x.1 ∉ s.visited ∧ t.label x.1 ≤ x.2 ∧ x.2 < s.label x.1 ∧
      ∃ w, (x.1, w) ∈ edges ∧ x.2 = add val w)

variable {P add note}

omit [DecidableEq V] in
theorem Expanded.label_le {cur : V} {val : Int} {edges : List (V × Int)} {s t : Search σ V ρ}
    (h : Expanded P add note cur val edges s t) (v : V) : t.label v ≤ s.label v := by
  rcases h.change v with ⟨heq, -⟩ | ⟨-, hlt, -⟩
  · exact Int.le_of_eq heq
  · exact Int.le_of_lt hlt

omit [DecidableEq V] in
/-- An edge that does not improve a label. -/
theorem Expanded.skip {cur : V} {val : Int} {edges : List (V × Int)} {s t : Search σ V ρ}
    (h : Expanded P add note cur val edges s t) {e : V × Int}
    (he : e.1 ∉ s.visited → t.label e.1 ≤ add val e.2) :
    Expanded P add note cur val (edges ++ [e]) s t := by
  have hmono {v : V} {w : Int} (hw : (v, w) ∈ edges) : (v, w) ∈ edges ++ [e] :=
    List.mem_append_left _ hw
  refine ⟨h.visited, fun v => ?_, fun f hf hv => ?_, h.kept, fun x hx => ?_⟩
  · rcases h.change v with heq | ⟨hv, hlt, hmem, hmark, w, hw, hsum⟩
    · exact .inl heq
    · exact .inr ⟨hv, hlt, hmem, hmark, w, hmono hw, hsum⟩
  · rcases List.mem_append.mp hf with hf | hf
    · exact h.relaxed f hf hv
    · rw [List.mem_singleton.mp hf] at hv ⊢
      exact he hv
  · rcases h.entry x hx with hx | ⟨hv, hle, hlt, w, hw, hsum⟩
    · exact .inl hx
    · exact .inr ⟨hv, hle, hlt, w, hmono hw, hsum⟩

/-- An edge that improves a label. -/
theorem Expanded.improve {cur : V} {val : Int} {edges : List (V × Int)} {s t : Search σ V ρ}
    (h : Expanded P add note cur val edges s t) {e : V × Int} (hvisited : e.1 ∉ s.visited)
    (hlt : add val e.2 < t.label e.1) :
    Expanded P add note cur val (edges ++ [e]) s
      { t with
        queue := P.enqueue t.queue e.1 (add val e.2)
        label := Function.update t.label e.1 (add val e.2)
        mark := Function.update t.mark e.1 (note cur (add val e.2)) } := by
  have hmono {v : V} {w : Int} (hw : (v, w) ∈ edges) : (v, w) ∈ edges ++ [e] :=
    List.mem_append_left _ hw
  have hlast : e ∈ edges ++ [e] := List.mem_append_right _ (List.mem_singleton_self e)
  have hle := h.label_le e.1
  -- Only the one label is another one than before.
  refine ⟨h.visited, fun v => ?_, fun f hf hv => ?_, ?_, fun x hx => ?_⟩
  · by_cases hve : v = e.1
    · subst hve
      refine .inr ⟨hvisited, ?_, ?_, ?_, e.2, hlast, ?_⟩
      · simp only [Function.update_self]
        omega
      · simp only [Function.update_self, P.entries_enqueue]
        exact Multiset.mem_cons_self _ _
      · simp only [Function.update_self]
      · simp only [Function.update_self]
    · simp only [Function.update_of_ne hve, P.entries_enqueue, Multiset.mem_cons]
      rcases h.change v with heq | ⟨hv, hlt, hmem, hmark, w, hw, hsum⟩
      · exact .inl heq
      · exact .inr ⟨hv, hlt, .inr hmem, hmark, w, hmono hw, hsum⟩
  · by_cases hfe : f.1 = e.1
    · simp only [hfe, Function.update_self]
      rcases List.mem_append.mp hf with hf | hf
      · have hrelaxed := h.relaxed f hf hv
        rw [hfe] at hrelaxed
        omega
      · rw [List.mem_singleton.mp hf]
    · simp only [Function.update_of_ne hfe]
      rcases List.mem_append.mp hf with hf | hf
      · exact h.relaxed f hf hv
      · exact absurd (congrArg Prod.fst (List.mem_singleton.mp hf)) hfe
  · simp only [P.entries_enqueue]
    exact le_trans h.kept (Multiset.le_cons_self _ _)
  · simp only [P.entries_enqueue] at hx
    rcases Multiset.mem_cons.mp hx with rfl | hx
    · refine .inr ⟨hvisited, ?_, Int.lt_of_lt_of_le hlt hle, e.2, hlast, rfl⟩
      simp only [Function.update_self]
      exact Int.le_refl _
    · rcases h.entry x hx with hx | ⟨hv, hxle, hxlt, w, hw, hsum⟩
      · exact .inl hx
      · refine .inr ⟨hv, ?_, hxlt, w, hmono hw, hsum⟩
        by_cases hxe : x.1 = e.1
        · simp only [hxe, Function.update_self]
          rw [hxe] at hxle
          omega
        · simp only [Function.update_of_ne hxe]
          exact hxle

/-- Relaxing one more edge. -/
theorem Expanded.relax {cur : V} {val : Int} {edges : List (V × Int)} {s t : Search σ V ρ}
    (h : Expanded P add note cur val edges s t) (e : V × Int) :
    Expanded P add note cur val (edges ++ [e]) s (relax P add note cur val t e) := by
  unfold Relaxation.relax
  split_ifs with hvisited hlt
  · exact h.skip (fun hv => absurd (h.visited ▸ hvisited) hv)
  · exact h.improve (h.visited ▸ hvisited) hlt
  · exact h.skip (fun _ => Int.not_lt.mp hlt)

/-- What taking out a vertex does. -/
theorem expand_expanded (G : Graph V) (cur : V) (val : Int) (s : Search σ V ρ) :
    Expanded P add note cur val (G cur) { s with visited := insert cur s.visited }
      (expand P add note G cur val s) := by
  -- The edges that are done are collected, so that the induction is on the others.
  have hfold (edges : List (V × Int)) : ∀ (done : List (V × Int)) (t : Search σ V ρ),
      Expanded P add note cur val done { s with visited := insert cur s.visited } t →
        Expanded P add note cur val (done ++ edges) { s with visited := insert cur s.visited }
          (edges.foldl (relax P add note cur val) t) := by
    induction edges with
    | nil =>
        intro done t h
        rw [List.append_nil]
        exact h
    | cons e edges ih =>
        intro done t h
        have htail := ih (done ++ [e]) _ (h.relax e)
        rw [List.append_assoc] at htail
        exact htail
  refine hfold (G cur) [] _ ⟨rfl, fun _ => .inl ⟨rfl, rfl⟩, fun e he => ?_, le_refl _,
    fun _ hx => .inl hx⟩
  exact absurd he List.not_mem_nil

/-- Without an entry nothing happens. -/
theorem next_eq_self (G : Graph V) {s : Search σ V ρ} (h : P.count s.queue = 0) :
    next P add note G s = s := by
  unfold next
  cases hq : P.tryDequeue s.queue with
  | none => rfl
  | some x =>
      rw [P.count_tryDequeue hq] at h
      exact absurd h (Nat.succ_ne_zero _)

/-- A search that has ended stays as it is. -/
theorem iterate_next_of_le (G : Graph V) {s : Search σ V ρ} {j k : Nat}
    (h : P.count ((next P add note G)^[k] s).queue = 0) (hkj : k ≤ j) :
    (next P add note G)^[j] s = (next P add note G)^[k] s := by
  rw [← Nat.sub_add_cancel hkj, Function.iterate_add_apply]
  exact Function.iterate_fixed (next_eq_self G h) _

/-- What a step does to the label of a vertex. -/
theorem next_change (G : Graph V) (s : Search σ V ρ) (v : V) :
    ((next P add note G s).label v = s.label v ∧ (next P add note G s).mark v = s.mark v) ∨
      ((next P add note G s).label v < s.label v ∧
        ∃ cur, (next P add note G s).mark v = note cur ((next P add note G s).label v)) := by
  unfold next
  cases hq : P.tryDequeue s.queue with
  | none => exact .inl ⟨rfl, rfl⟩
  | some x =>
      have hE := @expand_expanded σ V ρ _ P add note G x.1.1 x.1.2 { s with queue := x.2 }
      rcases hE.change v with hsame | ⟨-, hlt, -, hmark, -⟩
      · exact .inl hsame
      · exact .inr ⟨hlt, x.1.1, hmark⟩

/-- Labels only decrease. -/
theorem label_iterate_le (G : Graph V) (s : Search σ V ρ) (v : V) {j k : Nat} (hjk : j ≤ k) :
    ((next P add note G)^[k] s).label v ≤ ((next P add note G)^[j] s).label v := by
  induction k, hjk using Nat.le_induction with
  | base => exact Int.le_refl _
  | succ k _ ih =>
      rw [Function.iterate_succ_apply']
      refine Int.le_trans ?_ ih
      rcases @next_change σ V ρ _ P add note G ((next P add note G)^[k] s) v with
        ⟨heq, -⟩ | ⟨hlt, -⟩
      · exact Int.le_of_eq heq
      · exact Int.le_of_lt hlt

/-- A step takes at most one entry out. -/
theorem count_next (G : Graph V) (s : Search σ V ρ) :
    P.count s.queue ≤ P.count (next P add note G s).queue + 1 := by
  unfold next
  cases hq : P.tryDequeue s.queue with
  | none => exact Nat.le_succ _
  | some x =>
      have hE := @expand_expanded σ V ρ _ P add note G x.1.1 x.1.2 { s with queue := x.2 }
      have hcard := Multiset.card_le_card hE.kept
      rw [P.count_tryDequeue hq]
      exact Nat.succ_le_succ hcard

/-! ### The end of a search -/

/-- How far the labels of some vertices are above a bound, and the entries. -/
def potential (P : PriorityQueue σ V Int) (keys : Finset V) (low : Int) (s : Search σ V ρ) :
    Nat :=
  ∑ v ∈ keys, (s.label v - low).toNat + P.count s.queue

theorem potential_relax_le {keys : Finset V} {low : Int} {cur : V} {val : Int}
    (s : Search σ V ρ) {e : V × Int} (he : e.1 ∈ keys) (hlow : low ≤ add val e.2) :
    potential P keys low (relax P add note cur val s e) ≤ potential P keys low s := by
  unfold relax
  split_ifs with hvisited hlt
  · exact Nat.le_refl _
  -- The entry costs what the label loses.
  · unfold potential
    simp only [P.count_enqueue]
    have hsum : ∑ v ∈ keys, (Function.update s.label e.1 (add val e.2) v - low).toNat <
        ∑ v ∈ keys, (s.label v - low).toNat := by
      refine Finset.sum_lt_sum (fun v _ => ?_) ⟨e.1, he, ?_⟩
      · by_cases hv : v = e.1
        · rw [hv, Function.update_self]
          omega
        · rw [Function.update_of_ne hv]
      · rw [Function.update_self]
        omega
    omega
  · exact Nat.le_refl _

/-- A step takes an entry, and what it puts in its place has been paid for. -/
theorem potential_next_lt {G : Graph V} {keys : Finset V} {low : Int}
    (hkeys : ∀ u, ∀ e ∈ G u, e.1 ∈ keys) (hlow : ∀ a b, low ≤ add a b) {s : Search σ V ρ}
    (hcount : 0 < P.count s.queue) :
    potential P keys low (next P add note G s) < potential P keys low s := by
  rcases P.tryDequeue_isSome hcount with ⟨⟨cur, val⟩, q, hq⟩
  -- Relaxing does not make the potential larger.
  have hfold (edges : List (V × Int)) : (∀ e ∈ edges, e.1 ∈ keys) → ∀ t : Search σ V ρ,
      potential P keys low (edges.foldl (relax P add note cur val) t) ≤ potential P keys low t := by
    induction edges with
    | nil => exact fun _ t => Nat.le_refl _
    | cons e edges ih =>
        intro hedges t
        rcases List.forall_mem_cons.mp hedges with ⟨he, hedges⟩
        exact Nat.le_trans (ih hedges _) (potential_relax_le t he (hlow _ _))
  have hle := hfold (G cur) (hkeys cur)
    { s with queue := q, visited := insert cur s.visited }
  -- Taking the entry out makes it smaller.
  have hlt : potential P keys low { s with queue := q, visited := insert cur s.visited } <
      potential P keys low s := by
    unfold potential
    have htaken := P.count_tryDequeue hq
    simp only
    omega
  unfold next
  rw [hq]
  exact Nat.lt_of_le_of_lt hle hlt

/-- The search ends after finitely many steps, whatever the sums are, as long as
    they have a lower bound. -/
theorem exists_finished {G : Graph V} {keys : Finset V} {low : Int}
    (hkeys : ∀ u, ∀ e ∈ G u, e.1 ∈ keys) (hlow : ∀ a b, low ≤ add a b) (s : Search σ V ρ) :
    ∃ k ≤ potential P keys low s, P.count ((next P add note G)^[k] s).queue = 0 ∧
      ∀ j < k, 0 < P.count ((next P add note G)^[j] s).queue := by
  generalize hn : potential P keys low s = n
  induction n using Nat.strong_induction_on generalizing s with
  | h n ih =>
      by_cases hcount : P.count s.queue = 0
      · exact ⟨0, Nat.zero_le _, hcount, fun j hj => absurd hj (Nat.not_lt_zero j)⟩
      · have hpos := Nat.pos_of_ne_zero hcount
        have hlt := @potential_next_lt σ V ρ _ P add note G keys low hkeys hlow s hpos
        rw [hn] at hlt
        rcases ih _ hlt (next P add note G s) rfl with ⟨k, hk, hzero, hbefore⟩
        refine ⟨k + 1, by omega, hzero, fun j hj => ?_⟩
        cases j with
        | zero => exact hpos
        | succ j => exact hbefore j (by omega)

/-! ### Exact steps -/

/-- What holds as long as sums are exact. An entry has a simple path, whose other
    vertices have been taken out. -/
structure Inv (P : PriorityQueue σ V Int) (G : Graph V) (src : V) (top : Int)
    (s : Search σ V ρ) : Prop where
  entry (v : V) (p : Int) : (v, p) ∈ P.entries s.queue → s.label v ≤ p ∧ p < top ∧
    ∃ vs, Path G src v vs p ∧ vs.Nodup ∧ ∀ x ∈ vs, x = v ∨ x ∈ s.visited
  le_top (v : V) : s.label v ≤ top
  source : s.label src ≤ 0
  opened (v : V) : v ∉ s.visited → s.label v < top → (v, s.label v) ∈ P.entries s.queue
  closed (u : V) : u ∈ s.visited → ∀ e ∈ G u, s.label e.1 ≤ s.label u + e.2
  settled (u : V) : u ∈ s.visited → ∀ x ∈ P.entries s.queue, s.label u ≤ x.2
  path (v : V) : s.label v < top → ∃ vs, Path G src v vs (s.label v)

theorem Inv.start {G : Graph V} {src : V} {top : Int} (htop : 0 < top) (mark : V → ρ) :
    Inv P G src top (start P src top mark) := by
  -- The queue holds the source alone.
  have hentry (x : V × Int) : x ∈ P.entries (P.enqueue P.empty src 0) ↔ x = (src, 0) := by
    rw [P.entries_enqueue, P.entries_empty, Multiset.mem_cons, or_iff_left (Multiset.notMem_zero x)]
  -- And the source is the only vertex with a label.
  have hlabel (v : V) : Function.update (fun _ => top) src 0 v < top ↔ v = src := by
    by_cases hv : v = src
    · rw [hv, Function.update_self]
      exact iff_of_true htop rfl
    · rw [Function.update_of_ne hv]
      exact iff_of_false (Int.lt_irrefl _) hv
  unfold Relaxation.start
  constructor
  · intro v p hp
    rcases Prod.mk.inj ((hentry _).mp hp) with ⟨rfl, rfl⟩
    refine ⟨?_, htop, [v], .nil, List.nodup_singleton v, fun x hx => ?_⟩
    · simp only [Function.update_self]
      exact Int.le_refl 0
    · exact .inl (List.mem_singleton.mp hx)
  · intro v
    by_cases hv : v = src
    · simp only [hv, Function.update_self]
      omega
    · simp only [Function.update_of_ne hv]
      exact Int.le_refl _
  · simp only [Function.update_self]
    exact Int.le_refl 0
  · intro v _ hv
    rw [hlabel] at hv
    rw [hv, hentry]
    simp only [Function.update_self]
  · exact fun u hu => absurd hu (Finset.notMem_empty u)
  · exact fun u hu => absurd hu (Finset.notMem_empty u)
  · intro v hv
    rw [hlabel] at hv
    simp only [hv, Function.update_self]
    exact ⟨[src], .nil⟩

/-- An edge to a vertex that has not been taken out extends a simple path. -/
theorem Inv.extend {G : Graph V} {src : V} {top : Int} {s : Search σ V ρ}
    (hs : Inv P G src top s) {cur : V} {val : Int} {q : σ}
    (hq : P.tryDequeue s.queue = some ((cur, val), q)) {e : V × Int} (he : e ∈ G cur)
    (hnew : e.1 ∉ insert cur s.visited) :
    ∃ vs, Path G src e.1 vs (val + e.2) ∧ vs.Nodup ∧
      ∀ x ∈ vs, x = e.1 ∨ x ∈ insert cur s.visited := by
  have htaken : (cur, val) ∈ P.entries s.queue := P.mem_of_tryDequeue hq
  rcases (hs.entry cur val htaken).2.2 with ⟨vs, hpath, hnodup, hvs⟩
  have hvs' : ∀ x ∈ vs, x ∈ insert cur s.visited := fun x hx =>
    Finset.mem_insert.mpr (hvs x hx)
  refine ⟨e.1 :: vs, hpath.snoc cur e.1 vs val e.2 he, ?_, fun x hx => ?_⟩
  · exact List.nodup_cons.mpr ⟨fun hmem => hnew (hvs' e.1 hmem), hnodup⟩
  · exact (List.mem_cons.mp hx).imp_right (hvs' x)

section Next

variable {G : Graph V} {src : V} {top : Int} {s t : Search σ V ρ} {cur : V} {val : Int} {q : σ}
  (hs : Inv P G src top s) (hq : P.tryDequeue s.queue = some ((cur, val), q))
  (hsum : ∀ e ∈ G cur, e.1 ∉ insert cur s.visited → add val e.2 = val + e.2)
  (hE : Expanded P add note cur val (G cur)
    { s with queue := q, visited := insert cur s.visited } t)

omit [DecidableEq V] in
include hq in
/-- An entry that is left was there before. -/
theorem mem_entries_of_rest {x : V × Int} (hx : x ∈ P.entries q) : x ∈ P.entries s.queue := by
  rw [P.entries_of_some _ _ _ hq]
  exact Multiset.mem_cons_of_mem hx

omit [DecidableEq V] in
include hs hq in
/-- At the first time that a vertex is taken out, its label is the one it has. -/
theorem Inv.eq_label (hnew : cur ∉ s.visited) : val = s.label cur := by
  rcases hs.entry cur val (P.mem_of_tryDequeue hq) with ⟨hcur, hval, -⟩
  -- The entry of the label is in the queue too, and this one is least.
  have hopened := hs.opened cur hnew (Int.lt_of_le_of_lt hcur hval)
  exact Int.le_antisymm (P.least _ _ _ hq _ hopened) hcur

include hE in
theorem Expanded.label_of_visited {u : V} (hu : u ∈ insert cur s.visited) :
    t.label u = s.label u := by
  rcases hE.change u with ⟨heq, -⟩ | ⟨hno, -⟩
  · exact heq
  · exact absurd hu hno

include hE in
theorem Expanded.mark_of_visited {u : V} (hu : u ∈ insert cur s.visited) :
    t.mark u = s.mark u := by
  rcases hE.change u with ⟨-, heq⟩ | ⟨hno, -⟩
  · exact heq
  · exact absurd hu hno

include hs hq hsum hE in
theorem Inv.next_entry (v : V) (p : Int) (hp : (v, p) ∈ P.entries t.queue) :
    t.label v ≤ p ∧ p < top ∧
      ∃ vs, Path G src v vs p ∧ vs.Nodup ∧ ∀ x ∈ vs, x = v ∨ x ∈ t.visited := by
  rw [hE.visited]
  rcases hE.entry (v, p) hp with hold | ⟨hv, hvle, hvlt, w, hw, hpw⟩
  · rcases hs.entry v p (mem_entries_of_rest hq hold) with ⟨hvle, hptop, ws, hws, hnodup, hmem⟩
    refine ⟨Int.le_trans (hE.label_le v) hvle, hptop, ws, hws, hnodup, fun x hx => ?_⟩
    exact (hmem x hx).imp_right Finset.mem_insert_of_mem
  · have hp : p = val + w := hpw.trans (hsum (v, w) hw hv)
    rw [hp] at hvle hvlt ⊢
    exact ⟨hvle, Int.lt_of_lt_of_le hvlt (hs.le_top v), hs.extend hq hw hv⟩

include hs hq hE in
theorem Inv.next_opened (v : V) (hv : v ∉ t.visited) (hvtop : t.label v < top) :
    (v, t.label v) ∈ P.entries t.queue := by
  rw [hE.visited] at hv
  rcases hE.change v with ⟨heq, -⟩ | ⟨-, -, hmem, -⟩
  · simp only at heq
    rw [heq] at hvtop ⊢
    have hmem := hs.opened v (fun h => hv (Finset.mem_insert_of_mem h)) hvtop
    -- The entry that was taken out is that of another vertex.
    rw [P.entries_of_some _ _ _ hq] at hmem
    refine Multiset.mem_of_le hE.kept
      ((Multiset.mem_cons.mp hmem).resolve_left (fun heq => hv ?_))
    rw [(Prod.mk.inj heq).1]
    exact Finset.mem_insert_self _ _
  · exact hmem

include hs hq hsum hE in
theorem Inv.next_closed (hG : Nonneg G) (u : V) (hu : u ∈ t.visited) (e : V × Int)
    (he : e ∈ G u) : t.label e.1 ≤ t.label u + e.2 := by
  rw [hE.visited] at hu
  rw [hE.label_of_visited hu]
  by_cases hold : u ∈ s.visited
  · exact Int.le_trans (hE.label_le _) (hs.closed u hold e he)
  -- The vertex has been taken out just now.
  · have hucur : u = cur := (Finset.mem_insert.mp hu).resolve_right hold
    subst hucur
    have hw := hG u e he
    rw [← hs.eq_label hq hold]
    -- The label of the end is final, or has just been relaxed.
    by_cases hev : e.1 ∈ insert u s.visited
    · rw [hE.label_of_visited hev]
      rcases Finset.mem_insert.mp hev with heu | hev
      · rw [heu, ← hs.eq_label hq hold]
        omega
      · have hsettled := hs.settled e.1 hev _ (P.mem_of_tryDequeue hq)
        simp only at hsettled
        omega
    · rw [← hsum e he hev]
      exact hE.relaxed e he hev

include hs hq hsum hE in
theorem Inv.next_settled (hG : Nonneg G) (u : V) (hu : u ∈ t.visited) (x : V × Int)
    (hx : x ∈ P.entries t.queue) : t.label u ≤ x.2 := by
  have htaken : (cur, val) ∈ P.entries s.queue := P.mem_of_tryDequeue hq
  rw [hE.visited] at hu
  rw [hE.label_of_visited hu]
  have hu : s.label u ≤ val := by
    rcases Finset.mem_insert.mp hu with rfl | hu
    · exact (hs.entry u val htaken).1
    · exact hs.settled u hu _ htaken
  -- An entry is not less than the one that was taken out.
  rcases hE.entry x hx with hold | ⟨hv, -, -, w, hw, hxw⟩
  · exact Int.le_trans hu (P.least _ _ _ hq x (mem_entries_of_rest hq hold))
  · have hw' := hG cur _ hw
    rw [hxw, hsum (x.1, w) hw hv]
    simp only at hw' ⊢
    omega

include hs hq hsum hE in
theorem Inv.next_path (v : V) (hv : t.label v < top) : ∃ vs, Path G src v vs (t.label v) := by
  rcases hE.change v with ⟨heq, -⟩ | ⟨-, -, hmem, -⟩
  · simp only at heq
    rw [heq] at hv ⊢
    exact hs.path v hv
  · rcases (hs.next_entry hq hsum hE v _ hmem).2.2 with ⟨ws, hws, -⟩
    exact ⟨ws, hws⟩

end Next

/-- An exact step keeps the invariant. -/
theorem Inv.next {G : Graph V} (hG : Nonneg G) {src : V} {top : Int} {s : Search σ V ρ}
    (hs : Inv P G src top s) (hexact : Exact P add G s) :
    Inv P G src top (next P add note G s) := by
  unfold Relaxation.next
  cases hq : P.tryDequeue s.queue with
  | none => exact hs
  | some x =>
      rcases x with ⟨⟨cur, val⟩, q⟩
      have hsum := hexact cur val q hq
      have hE := @expand_expanded σ V ρ _ P add note G cur val { s with queue := q }
      simp only at hE ⊢
      exact ⟨hs.next_entry hq hsum hE, fun v => Int.le_trans (hE.label_le v) (hs.le_top v),
        Int.le_trans (hE.label_le src) hs.source, hs.next_opened hq hE,
        hs.next_closed hq hsum hE hG, hs.next_settled hq hsum hE hG, hs.next_path hq hsum hE⟩

/-! ### The labels at the end -/

section

variable {G : Graph V} {src : V} {top : Int} {s : Search σ V ρ}

/-- When the queue is empty, a vertex with a label has been taken out. -/
theorem Inv.visited_of_lt (hs : Inv P G src top s) (hcount : P.count s.queue = 0) {v : V}
    (hv : s.label v < top) : v ∈ s.visited := by
  by_contra hnew
  have hmem := hs.opened v hnew hv
  rw [(P.entries_eq_zero_iff _).mpr hcount] at hmem
  exact Multiset.notMem_zero _ hmem

theorem Inv.label_le (hG : Nonneg G) (hs : Inv P G src top s) (hcount : P.count s.queue = 0)
    {v : V} {vs : List V} {d : Int} (hpath : Path G src v vs d) (hd : d < top) :
    s.label v ≤ d :=
  hpath.le_of_closed hG hs.source
    (fun u hu => hs.closed u (hs.visited_of_lt hcount hu)) hd

/-- A vertex has no label if no path to it is shorter than the top. -/
theorem Inv.label_eq_top_iff (hG : Nonneg G) (hs : Inv P G src top s)
    (hcount : P.count s.queue = 0) (v : V) :
    s.label v = top ↔ ∀ vs d, Path G src v vs d → top ≤ d := by
  constructor
  · intro hv vs d hpath
    by_contra hd
    have hle := hs.label_le hG hcount hpath (Int.not_le.mp hd)
    omega
  · intro h
    by_contra hv
    have hlt := lt_of_le_of_ne (hs.le_top v) hv
    rcases hs.path v hlt with ⟨vs, hpath⟩
    have hle := h vs _ hpath
    omega

/-- A label is the distance. -/
theorem Inv.isDistance (hG : Nonneg G) (hs : Inv P G src top s) (hcount : P.count s.queue = 0)
    {v : V} (hv : s.label v < top) : IsDistance G src v (s.label v) := by
  refine ⟨hs.path v hv, fun vs d hpath => ?_⟩
  by_contra hd
  have hle := hs.label_le hG hcount hpath (Int.lt_trans (Int.not_le.mp hd) hv)
  omega

end

end

end Relaxation

end BlogSample
