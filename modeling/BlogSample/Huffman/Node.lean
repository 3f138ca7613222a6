import BlogSample.DotNet
import BlogSample.Theory.CodeTree

/-!
# Huffman Nodes

The tree of the Huffman sample and its code table. A reference to a node is
either `null` or a node with two references, an optional byte, and a weight;
only a leaf has a byte.

`scanTree` fills a dictionary while it walks the tree, writing the code into
the node on the way down. The written codes are read by no one else, so the
model hands the code down as an argument.

The nodes are read as a code tree over bytes by `tree`, which forgets the
weights. `scanTree_eq` is the refinement: on a tree whose leaves carry
distinct bytes the dictionary is the list of codes of that code tree, spelled
with the characters `0` and `1`.

## Main definitions

* `Node`: References to tree nodes.
* `scan`: One step of the table walk.
* `scanTree`: The code table of a tree.
* `tree`: The code tree a node stands for.
* `bitChar`: The character of a bit.

## Theorems

* `scan_eq`: What the walk adds to the dictionary.
* `scanTree_eq`: The table is the list of codes.
-/

namespace BlogSample

namespace Huffman

open DotNet

/-- A reference to a node. The byte of a node is `none` unless it is a
    leaf. -/
inductive Node where
  | null
  | node (left : Node) (c : Option UInt8) (right : Node) (weight : Nat)
  deriving DecidableEq

namespace Node

/-- The weight of a node; no code reads it off a `null`. -/
def weight : Node → Nat
  | null => 0
  | node _ _ _ w => w

def isNull : Node → Bool
  | null => true
  | node _ _ _ _ => false

/-- `ScanTree(haffmanCodes, node)`, with `code` the code of the node. -/
def scan : Dictionary UInt8 (List Char) → List Char → Node →
    Except Exn (Dictionary UInt8 (List Char))
  | _, _, null => throw .nullReference
  | haffmanCodes, code, node left none right _ => do
      let haffmanCodes ←
        (if left.isNull then pure haffmanCodes else scan haffmanCodes (code ++ ['0']) left)
      (if right.isNull then pure haffmanCodes else scan haffmanCodes (code ++ ['1']) right)
  | haffmanCodes, code, node _ (some c) _ _ => haffmanCodes.add c code

/-- `ScanTree()`: the root has no code, which extends like an empty one. -/
def scanTree (node : Node) : Except Exn (Dictionary UInt8 (List Char)) :=
  scan Dictionary.empty [] node

/-- The code tree a node stands for. -/
def tree : Node → CodeTree UInt8
  | null => .empty
  | node left none right _ => .branch left.tree right.tree
  | node _ (some c) _ _ => .leaf c

end Node

/-- The character a bit is written as. -/
def bitChar (b : Bool) : Char :=
  if b then '1' else '0'

namespace Node

/-- The bytes at the leaves of a tree. -/
def leaves (n : Node) : List UInt8 :=
  n.tree.codes.map Prod.fst

/-- The codes below a node whose own code is `code`, as the table holds
    them. -/
def written (code : List Char) (n : Node) : List (UInt8 × List Char) :=
  n.tree.codes.map (fun p => (p.1, code ++ p.2.map bitChar))

@[simp]
theorem leaves_inner (left right : Node) (w : Nat) :
    (node left none right w).leaves = left.leaves ++ right.leaves := by
  simp only [leaves, tree, CodeTree.codes, List.map_append, List.map_map]
  rfl

theorem written_fst (code : List Char) (n : Node) :
    (n.written code).map Prod.fst = n.leaves := by
  rw [written, leaves, List.map_map]
  rfl

theorem written_inner (code : List Char) (left right : Node) (w : Nat) :
    (node left none right w).written code
      = left.written (code ++ ['0']) ++ right.written (code ++ ['1']) := by
  simp only [written, tree, CodeTree.codes, List.map_append, List.map_map]
  congr 1
  all_goals
    refine List.map_congr_left (fun p _ => ?_)
    simp only [Function.comp_apply, List.map_cons, List.append_assoc, List.cons_append,
      List.nil_append]
    rfl

/-- The walk skips a `null` child, which has nothing to write. -/
theorem scan_child (d : Dictionary UInt8 (List Char)) (code : List Char) (n : Node)
    (h : n ≠ null → ∃ d', scan d code n = .ok d' ∧ d'.entries = d.entries ++ n.written code) :
    ∃ d', (if n.isNull then pure d else scan d code n) = .ok d' ∧
      d'.entries = d.entries ++ n.written code := by
  cases n with
  | null => exact ⟨d, rfl, (List.append_nil _).symm⟩
  | node l c r w => exact h (by simp only [ne_eq, reduceCtorEq, not_false_eq_true])

/-- The walk adds the codes below the node, provided its bytes are distinct
    and new. -/
theorem scan_eq (n : Node) : ∀ (d : Dictionary UInt8 (List Char)) (code : List Char), n ≠ null →
    (d.entries.map Prod.fst ++ n.leaves).Nodup →
    ∃ d', scan d code n = .ok d' ∧ d'.entries = d.entries ++ n.written code := by
  induction n with
  | null => intro _ _ hne; exact absurd rfl hne
  | node left c right w ihl ihr =>
      intro d code _ hnd
      cases c with
      | some c =>
          have hc : c ∉ d.entries.map Prod.fst := by
            intro hmem
            exact (List.nodup_append.mp hnd).2.2 c hmem c (List.mem_singleton.mpr rfl) rfl
          rcases Dictionary.add_eq d c code hc with ⟨d', hadd, hent⟩
          refine ⟨d', hadd, ?_⟩
          rw [hent]
          simp only [written, tree, CodeTree.codes, List.map_cons, List.map_nil, List.append_nil]
      | none =>
          rw [leaves_inner, ← List.append_assoc] at hnd
          -- The left subtree first, then the right one over its result.
          rcases scan_child d (code ++ ['0']) left
            (fun hl => ihl d _ hl (List.nodup_append.mp hnd).1) with ⟨d₁, hd₁, he₁⟩
          have hnd₁ : (d₁.entries.map Prod.fst ++ right.leaves).Nodup := by
            rw [he₁, List.map_append, written_fst]
            exact hnd
          rcases scan_child d₁ (code ++ ['1']) right (fun hr => ihr d₁ _ hr hnd₁) with
            ⟨d₂, hd₂, he₂⟩
          refine ⟨d₂, ?_, ?_⟩
          · rw [scan, hd₁]
            exact hd₂
          · rw [he₂, he₁, written_inner, List.append_assoc]

/-- The code table of a tree with distinct bytes is the list of its codes. -/
theorem scanTree_eq (n : Node) (hne : n ≠ null) (hnd : n.leaves.Nodup) :
    ∃ d, n.scanTree = .ok d ∧ d.entries = n.tree.codes.map (fun p => (p.1, p.2.map bitChar)) := by
  rcases scan_eq n Dictionary.empty [] hne hnd with ⟨d, hd, he⟩
  exact ⟨d, hd, he⟩

end Node

end Huffman

end BlogSample
