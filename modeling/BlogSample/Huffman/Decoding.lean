import BlogSample.Huffman.Compression

/-!
# Decoding Any Message

The code table of a buffer serves any message over its bytes, not just the
buffer. The bit loop of `UnZip` returns to the root after each code, so it
stands at the root in the end.

## Main definitions

* `bitLoop`: The loop of `UnZip` with the node at which it ends.

## Theorems

* `walk_eq_bitLoop`: The bytes are those of `walk`.
* `bitLoop_code`: Reading a code returns to the root.
* `decodes_any_message`: The table is a prefix code for exactly the bytes of the
  buffer, and the loop reads any message over them.
-/

namespace BlogSample

namespace Huffman

open DotNet

/-- The loop of `UnZip`, with the node at which it stands in the end. -/
def bitLoop (huffmanTree : Node) : Node → List UInt8 → List Char → Except Exn (Node × List UInt8)
  | cur, bitArray, [] => pure (cur, bitArray)
  | cur, bitArray, bit :: bitString =>
      match cur with
      | .null => throw .nullReference
      | .node left _ right _ =>
          match (if bit == '1' then right else left) with
          | .null => throw .nullReference
          | .node _ (some c) _ _ => bitLoop huffmanTree huffmanTree (bitArray ++ [c]) bitString
          | .node l none r w => bitLoop huffmanTree (.node l none r w) bitArray bitString

/-- The bytes are those that `walk` finds. -/
theorem walk_eq_bitLoop (root cur : Node) (bitArray : List UInt8) (bitString : List Char) :
    walk root cur bitArray bitString = (bitLoop root cur bitArray bitString).map Prod.snd := by
  fun_induction bitLoop root cur bitArray bitString with
  | case1 => rfl
  | case2 => rfl
  | case3 bitArray bit bitString left c right w h =>
      rw [walk, h]
      rfl
  | case4 bitArray bit bitString left c right w l a r w' h ih =>
      rw [walk, h]
      exact ih
  | case5 bitArray bit bitString left c right w l r w' h ih =>
      rw [walk, h]
      exact ih

/-- Reading a code adds its byte and returns to the root. -/
theorem bitLoop_code (root : Node) (a : UInt8) (acc : List UInt8) (rest : List Char)
    (c : List Bool) : ∀ cur : Node, (a, c) ∈ cur.tree.codes → c ≠ [] →
      bitLoop root cur acc (c.map bitChar ++ rest) = bitLoop root root (acc ++ [a]) rest := by
  induction c with
  | nil => exact fun _ _ hne => absurd rfl hne
  | cons b c ih =>
      intro cur hm _
      cases cur with
      | null => exact absurd hm List.not_mem_nil
      | node left byte right w =>
          cases byte with
          | some a' =>
              exact absurd (Prod.mk.inj (List.mem_singleton.mp hm)).2 (List.cons_ne_nil b c)
          | none =>
              rcases (CodeTree.mem_codes_branch left.tree right.tree a (b :: c)).mp hm with
                ⟨b', c', hcons, hchild⟩
              rcases List.cons.inj hcons with ⟨rfl, rfl⟩
              -- The loop goes to the child that the bit of the code leads to.
              have hside : (CodeTree.branch left.tree right.tree).child b =
                  (if bitChar b == '1' then right else left).tree := by
                cases b <;> rfl
              rw [hside] at hchild
              rw [List.map_cons, List.cons_append, bitLoop]
              generalize (if bitChar b == '1' then right else left) = side at hchild
              cases side with
              | null => exact absurd hchild List.not_mem_nil
              | node l byte r w' =>
                  cases byte with
                  | some a' =>
                      -- The code ends at a leaf.
                      rcases Prod.mk.inj (List.mem_singleton.mp hchild) with ⟨rfl, rfl⟩
                      rfl
                  | none =>
                      have hbr : (Node.node l none r w').tree.IsBranch := trivial
                      exact ih (.node l none r w') hchild (CodeTree.code_ne_nil hbr hchild)

/-- Reading the codes of a message ends at the root. -/
theorem bitLoop_spells {root : Node} (hroot : root.tree.IsBranch) {message : List UInt8}
    {bits : List Bool} (h : root.tree.Spells message bits) (acc : List UInt8) :
    bitLoop root root acc (bits.map bitChar) = .ok (root, acc ++ message) := by
  induction h generalizing acc with
  | nil =>
      rw [List.append_nil]
      rfl
  | cons a c s bits hm _ ih =>
      rw [List.map_append, bitLoop_code root a acc _ c root hm (CodeTree.code_ne_nil hroot hm),
        ih, List.append_assoc]
      rfl

/-- Codes that begin alike in the table begin alike in the tree. -/
theorem isPrefix_of_map {c c' : List Bool} (h : c.map bitChar <+: c'.map bitChar) :
    c <+: c' := by
  have hmap := h.map (fun x => x == '1')
  simp only [List.map_map] at hmap
  have hid (l : List Bool) : l.map ((fun x => x == '1') ∘ bitChar) = l :=
    (List.map_congr_left (fun b _ => bitChar_beq b)).trans (List.map_id l)
  rw [hid, hid] at hmap
  exact hmap

/-- What the table holds. -/
theorem tryGetValue_table {n : Node} {d : Dictionary UInt8 (List Char)}
    (hent : d.entries = n.tree.codes.map (fun p => (p.1, p.2.map bitChar))) (x : UInt8)
    (code : List Char) :
    d.tryGetValue x = some code ↔ ∃ c, (x, c) ∈ n.tree.codes ∧ code = c.map bitChar := by
  rw [Dictionary.tryGetValue_eq_some_iff, hent, List.mem_map]
  constructor
  · rintro ⟨p, hp, heq⟩
    rcases Prod.mk.inj heq with ⟨rfl, rfl⟩
    exact ⟨p.2, hp, rfl⟩
  · rintro ⟨c, hc, rfl⟩
    exact ⟨(x, c), hc, rfl⟩

/-- The table has a code for exactly the bytes of the buffer, none of them is empty or
    the beginning of another one, and the loop of `UnZip` reads any message over these
    bytes, ending at the root. -/
theorem decodes_any_message (s : ListSort Node Node.weight) (buffer : List UInt8)
    (hne : buffer ≠ []) :
    ∃ n d, createHuffmanTree s (nodeList buffer) = .ok n ∧ n.scanTree = .ok d ∧
      (∀ x, x ∈ buffer ↔ ∃ code, d.tryGetValue x = some code) ∧
      (∀ x code, d.tryGetValue x = some code → code ≠ []) ∧
      (∀ x y code code', d.tryGetValue x = some code → d.tryGetValue y = some code' →
        x ≠ y → ¬code <+: code') ∧
      ∀ message : List UInt8, (∀ x ∈ message, x ∈ buffer) →
        ∃ codes, message.mapM d.item = .ok codes ∧
          bitLoop n n [] codes.flatten = .ok (n, message) := by
  rcases table_eq s buffer hne with ⟨n, d, hn, hd, hbr, hnd, hmem, hent⟩
  have htable := tryGetValue_table hent
  refine ⟨n, d, hn, hd, fun x => ?_, fun x code h => ?_, fun x y code code' h h' hxy hpre => ?_,
    fun message hmessage => ?_⟩
  -- The leaves of the tree are the symbols of the buffer.
  · rw [← hmem x]
    unfold Node.leaves
    rw [List.mem_map]
    constructor
    · rintro ⟨⟨_, c⟩, hc, rfl⟩
      exact ⟨_, (htable _ _).mpr ⟨c, hc, rfl⟩⟩
    · rintro ⟨code, hcode⟩
      rcases (htable x code).mp hcode with ⟨c, hc, -⟩
      exact ⟨(x, c), hc, rfl⟩
  · rcases (htable x code).mp h with ⟨c, hc, rfl⟩
    exact fun hnil => CodeTree.code_ne_nil hbr hc (List.map_eq_nil_iff.mp hnil)
  -- Codes are paths to leaves, so none is the beginning of another.
  · rcases (htable x code).mp h with ⟨c, hc, rfl⟩
    rcases (htable y code').mp h' with ⟨c', hc', rfl⟩
    exact hxy (CodeTree.eq_of_isPrefix hc hc' (isPrefix_of_map hpre)).1
  -- A message of such codes is read back, leaf by leaf.
  · rcases mapM_item_spells n.tree d hent message (fun x hx => (hmem x).mpr (hmessage x hx)) with
      ⟨codes, bits, hm, hsp, hfl⟩
    refine ⟨codes, hm, ?_⟩
    rw [hfl, bitLoop_spells hbr hsp []]
    rfl

/-- Four bytes with codes of one, two and three digits. -/
theorem decodes_any_message_sample :
    ∃ n d, createHuffmanTree (insertionSort Node Node.weight)
        (nodeList [7, 9, 7, 200, 7, 9, 0, 7]) = .ok n ∧
      n.scanTree = .ok d ∧
      (∀ x, x ∈ [7, 9, 7, 200, 7, 9, 0, 7] ↔ ∃ code, d.tryGetValue x = some code) ∧
      (∀ x code, d.tryGetValue x = some code → code ≠ []) ∧
      (∀ x y code code', d.tryGetValue x = some code → d.tryGetValue y = some code' →
        x ≠ y → ¬code <+: code') ∧
      ∀ message : List UInt8, (∀ x ∈ message, x ∈ [7, 9, 7, 200, 7, 9, 0, 7]) →
        ∃ codes, message.mapM d.item = .ok codes ∧
          bitLoop n n [] codes.flatten = .ok (n, message) :=
  decodes_any_message (insertionSort Node Node.weight) [7, 9, 7, 200, 7, 9, 0, 7]
    (List.cons_ne_nil _ _)

end Huffman

end BlogSample
