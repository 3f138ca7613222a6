import Mathlib.Data.List.Nodup

/-!
# Binary Code Trees

Symbols at the leaves of a binary tree, a symbol's code being the path that
leads to it, and the decoder that walks the tree bit by bit and starts again
at the root whenever it meets a leaf.

The decoder is kept as weak as a program that does not check its input: it
stops wherever the bits stop, in the middle of a code as well as after one,
and it fails only when it steps off the tree. `decodeFrom_eq_some_iff` says
exactly what such a decoder accepts: a sequence of whole codes followed by a
path to an inner node.

`Spells` relates a sequence of symbols to the bits that encode it. It needs no
equality test on the symbols, and a tree that repeats a symbol simply spells
it in several ways; `Spells.unique` is where distinct leaves matter.

## Main definitions

* `CodeTree`: Binary trees with symbols at the leaves.
* `codes`: Every symbol with its path.
* `descend`: The subtree at the end of a path.
* `decodeFrom`: The decoder, standing at a given node.
* `Spells`: The encoding of a sequence, symbol by symbol.

## Theorems

* `decodeFrom_code`: Walking a code emits its symbol.
* `eq_of_isPrefix`: No code is the beginning of another one.
* `decodeFrom_spells`: Decoding inverts encoding.
* `decodeFrom_eq_some_iff`: What the decoder accepts.
* `Spells.unique`: Distinct leaves spell a sequence in one way.
-/

namespace BlogSample

universe u

/-- A binary tree with symbols at the leaves. A missing child is `empty`. -/
inductive CodeTree (α : Type u) where
  | empty
  | leaf (a : α)
  | branch (zero one : CodeTree α)

namespace CodeTree

variable {α : Type u}

/-- Every symbol with the path that leads to it, `false` going to the first
    child. -/
def codes : CodeTree α → List (α × List Bool)
  | empty => []
  | leaf a => [(a, [])]
  | branch zero one =>
      zero.codes.map (fun p => (p.1, false :: p.2)) ++ one.codes.map (fun p => (p.1, true :: p.2))

/-- The child on the side of a bit, which only an inner node has. -/
def child : CodeTree α → Bool → CodeTree α
  | branch zero _, false => zero
  | branch _ one, true => one
  | _, _ => empty

/-- The subtree at the end of a path. -/
def descend (t : CodeTree α) (bits : List Bool) : CodeTree α :=
  bits.foldl child t

/-- The node has children. -/
def IsBranch : CodeTree α → Prop
  | branch _ _ => True
  | _ => False

/-- Decode from the node `cur`: step to the child each bit names, emit the
    symbol of a leaf and start again at the root, fail off the tree. -/
def decodeFrom (root : CodeTree α) : CodeTree α → List Bool → Option (List α)
  | _, [] => some []
  | cur, b :: bits =>
      match cur.child b with
      | empty => none
      | leaf a => (decodeFrom root root bits).map (fun s => a :: s)
      | branch zero one => decodeFrom root (branch zero one) bits

/-- The bits spell the sequence: they are the codes of its symbols, in
    order. -/
inductive Spells (t : CodeTree α) : List α → List Bool → Prop
  | nil : Spells t [] []
  | cons (a : α) (c : List Bool) (s : List α) (bits : List Bool) :
      (a, c) ∈ t.codes → Spells t s bits → Spells t (a :: s) (c ++ bits)

theorem mem_codes_branch (zero one : CodeTree α) (a : α) (c : List Bool) :
    (a, c) ∈ (branch zero one).codes ↔
      ∃ b d, c = b :: d ∧ (a, d) ∈ ((branch zero one).child b).codes := by
  simp only [codes, List.mem_append, List.mem_map, Prod.mk.injEq, Prod.exists]
  constructor
  · rintro (⟨a', d, hm, rfl, rfl⟩ | ⟨a', d, hm, rfl, rfl⟩)
    · exact ⟨false, d, rfl, hm⟩
    · exact ⟨true, d, rfl, hm⟩
  · rintro ⟨b, d, rfl, hm⟩
    cases b with
    | false => exact Or.inl ⟨a, d, hm, rfl, rfl⟩
    | true => exact Or.inr ⟨a, d, hm, rfl, rfl⟩

/-- Walking a code emits its symbol and starts again at the root. -/
theorem decodeFrom_code (root : CodeTree α) (a : α) (rest : List Bool) :
    ∀ (c : List Bool) (cur : CodeTree α), (a, c) ∈ cur.codes → c ≠ [] →
      decodeFrom root cur (c ++ rest) = (decodeFrom root root rest).map (fun s => a :: s) := by
  intro c
  induction c with
  | nil => intro _ _ hne; exact absurd rfl hne
  | cons b d ih =>
      intro cur hm _
      cases cur with
      | empty => simp only [codes, List.not_mem_nil] at hm
      | leaf a' =>
          simp only [codes, List.mem_singleton, Prod.mk.injEq, reduceCtorEq, and_false] at hm
      | branch zero one =>
          rcases (mem_codes_branch zero one a (b :: d)).mp hm with ⟨b', d', hbd, hmd⟩
          rcases List.cons.inj hbd with ⟨rfl, rfl⟩
          rw [List.cons_append, decodeFrom]
          cases hch : (branch zero one).child b with
          | empty => rw [hch] at hmd; simp only [codes, List.not_mem_nil] at hmd
          -- The last bit of the code leads to its leaf.
          | leaf a' =>
              rw [hch] at hmd
              simp only [codes, List.mem_singleton, Prod.mk.injEq] at hmd
              rcases hmd with ⟨rfl, rfl⟩
              rfl
          | branch z o =>
              rw [hch] at hmd
              have hd : d ≠ [] := by
                rcases (mem_codes_branch z o a d).mp hmd with ⟨_, _, rfl, _⟩
                exact List.cons_ne_nil _ _
              exact ih (branch z o) hmd hd

/-- No code of an inner node is empty. -/
theorem code_ne_nil {t : CodeTree α} (ht : t.IsBranch) {a : α} {c : List Bool}
    (hm : (a, c) ∈ t.codes) : c ≠ [] := by
  cases t with
  | empty => exact ht.elim
  | leaf a' => exact ht.elim
  | branch zero one =>
      rcases (mem_codes_branch zero one a c).mp hm with ⟨_, _, rfl, _⟩
      exact List.cons_ne_nil _ _

/-- No code is the beginning of another one. -/
theorem eq_of_isPrefix {t : CodeTree α} {a a' : α} {c c' : List Bool} (hm : (a, c) ∈ t.codes)
    (hm' : (a', c') ∈ t.codes) (hc : c <+: c') : a = a' ∧ c = c' := by
  induction t generalizing c c' with
  | empty => exact absurd hm List.not_mem_nil
  | leaf b =>
      have heq := (List.mem_singleton.mp hm).trans (List.mem_singleton.mp hm').symm
      exact Prod.mk.inj heq
  | branch zero one ihz iho =>
      rcases (mem_codes_branch zero one a c).mp hm with ⟨b, d, rfl, hd⟩
      rcases (mem_codes_branch zero one a' c').mp hm' with ⟨b', d', rfl, hd'⟩
      rcases List.cons_prefix_cons.mp hc with ⟨rfl, hpre⟩
      have hsame : a = a' ∧ d = d' := by
        cases b with
        | false => exact ihz hd hd' hpre
        | true => exact iho hd hd' hpre
      exact ⟨hsame.1, congrArg (List.cons b) hsame.2⟩

/-- Decoding inverts encoding, and goes on with what follows. -/
theorem decodeFrom_spells {root : CodeTree α} (ht : root.IsBranch) {s : List α}
    {bits : List Bool} (h : Spells root s bits) (rest : List Bool) :
    decodeFrom root root (bits ++ rest) = (decodeFrom root root rest).map (fun u => s ++ u) := by
  induction h with
  | nil => simp only [List.nil_append, Option.map_id']
  | cons a c s bits hm _ ih =>
      rw [List.append_assoc, decodeFrom_code root a (bits ++ rest) c root hm (code_ne_nil ht hm),
        ih, Option.map_map]
      rfl

/-- Below a node without children there is no inner node. -/
theorem not_isBranch_descend : ∀ (r : List Bool) (t : CodeTree α), ¬ t.IsBranch →
    (∀ b, t.child b = empty) → ¬ (t.descend r).IsBranch := by
  intro r
  induction r with
  | nil => intro t ht _; exact ht
  | cons b r ih =>
      intro t _ hch
      change ¬ ((t.child b).descend r).IsBranch
      rw [hch b]
      exact ih empty (fun h => h) (fun _ => rfl)

/-- The walk along a path that stays on inner nodes emits nothing. -/
theorem decodeFrom_descend (root : CodeTree α) :
    ∀ (r : List Bool) (cur : CodeTree α), r = [] ∨ (cur.descend r).IsBranch →
      decodeFrom root cur r = some [] := by
  intro r
  induction r with
  | nil => intro _ _; rfl
  | cons b r ih =>
      intro cur h
      have h' : (cur.descend (b :: r)).IsBranch := h.resolve_left (List.cons_ne_nil _ _)
      change ((cur.child b).descend r).IsBranch at h'
      rw [decodeFrom]
      cases hch : cur.child b with
      | branch z o => exact ih (branch z o) (Or.inr (hch ▸ h'))
      | empty =>
          rw [hch] at h'
          exact absurd h' (not_isBranch_descend r empty (fun h => h) (fun _ => rfl))
      | leaf a =>
          rw [hch] at h'
          exact absurd h' (not_isBranch_descend r (leaf a) (fun h => h) (fun _ => rfl))

/-- A successful walk either emits nothing, ending inside the tree, or
    completes a first code and goes on from the root. -/
theorem decodeFrom_some_cases (root : CodeTree α) :
    ∀ (bits : List Bool) (cur : CodeTree α) (s : List α), decodeFrom root cur bits = some s →
      (s = [] ∧ (bits = [] ∨ (cur.descend bits).IsBranch)) ∨
      ∃ a c bits' s', (a, c) ∈ cur.codes ∧ c ≠ [] ∧ bits = c ++ bits' ∧ s = a :: s' ∧
        decodeFrom root root bits' = some s' := by
  intro bits
  induction bits with
  | nil =>
      intro cur s h
      rw [decodeFrom, Option.some.injEq] at h
      exact Or.inl ⟨h.symm, Or.inl rfl⟩
  | cons b bits ih =>
      intro cur s h
      rw [decodeFrom] at h
      cases cur with
      | empty => simp only [child, reduceCtorEq] at h
      | leaf a => simp only [child, reduceCtorEq] at h
      | branch zero one =>
          cases hch : (branch zero one).child b with
          | empty => rw [hch] at h; simp only [reduceCtorEq] at h
          -- A symbol is complete, and decoding starts again at the root.
          | leaf a =>
              rw [hch] at h
              simp only [Option.map_eq_some_iff] at h
              rcases h with ⟨s', hs', rfl⟩
              refine Or.inr ⟨a, [b], bits, s', ?_, List.cons_ne_nil _ _, rfl, rfl, hs'⟩
              refine (mem_codes_branch zero one a [b]).mpr ⟨b, [], rfl, ?_⟩
              rw [hch, codes]
              exact List.mem_singleton.mpr rfl
          -- The walk goes on below, where the induction says how it ends.
          | branch z o =>
              rw [hch] at h
              rcases ih (branch z o) s h with ⟨hs, hend⟩ | ⟨a, c, bits', s', hm, _, hbits, hs, hd⟩
              · refine Or.inl ⟨hs, Or.inr ?_⟩
                change (((branch zero one).child b).descend bits).IsBranch
                rw [hch]
                rcases hend with rfl | hend
                · exact trivial
                · exact hend
              · refine Or.inr ⟨a, b :: c, bits', s', ?_, List.cons_ne_nil _ _, ?_, hs, hd⟩
                · exact (mem_codes_branch zero one a (b :: c)).mpr ⟨b, c, rfl, hch ▸ hm⟩
                · rw [hbits, List.cons_append]

/-- The decoder accepts exactly the sequences of whole codes followed by a
    path to an inner node. -/
theorem decodeFrom_eq_some_iff {root : CodeTree α} (ht : root.IsBranch) (bits : List Bool)
    (s : List α) :
    decodeFrom root root bits = some s ↔
      ∃ c r, Spells root s c ∧ bits = c ++ r ∧ (r = [] ∨ (root.descend r).IsBranch) := by
  constructor
  -- Every completed code shortens the bits that are left.
  · induction hn : bits.length using Nat.strongRecOn generalizing bits s with
    | _ n ih =>
        intro h
        rcases decodeFrom_some_cases root bits root s h with
          ⟨rfl, hend⟩ | ⟨a, c, bits', s', hm, hne, rfl, rfl, hd⟩
        · exact ⟨[], bits, Spells.nil, rfl, hend⟩
        · have hlt : bits'.length < n := by
            have := List.length_pos_iff.mpr hne
            rw [← hn, List.length_append]
            omega
          rcases ih _ hlt bits' s' rfl hd with ⟨c', r, hsp, rfl, hend⟩
          exact ⟨c ++ c', r, Spells.cons a c s' c' hm hsp, (List.append_assoc c c' r).symm, hend⟩
  · rintro ⟨c, r, hsp, rfl, hend⟩
    rw [decodeFrom_spells ht hsp r, decodeFrom_descend root r root hend, Option.map_some,
      List.append_nil]

/-- When no two leaves carry the same symbol, a sequence is spelled in one
    way. -/
theorem Spells.unique {t : CodeTree α} (hnd : (t.codes.map Prod.fst).Nodup) {s : List α}
    {bits bits' : List Bool} (h : Spells t s bits) (h' : Spells t s bits') : bits = bits' := by
  induction h generalizing bits' with
  | nil => cases h' with | nil => rfl
  | cons a c s bits hm _ ih =>
      cases h' with
      | cons _ c' _ bits'' hm' hs' =>
          have hcc : (a, c) = (a, c') := List.inj_on_of_nodup_map hnd hm hm' rfl
          rw [(Prod.mk.inj hcc).2, ih hs']

end CodeTree

end BlogSample
