import BlogSample.Huffman.Node
import BlogSample.Theory.BitPacking

/-!
# Huffman Compression

Building the tree, packing the codes of a buffer into bytes, and unpacking
them again.

`zip` writes the codes of the buffer into one string of `0` and `1`, reverses
it, and packs it from the least significant bit, so that the first character
of the string is the highest bit used in the last byte. `unZip` undoes the
reversal byte by byte: every byte but the last is expanded to eight digits,
the last one to `bitLength % 8`, and the pieces are joined in reverse order.

When the string fills its last byte, `bitLength % 8` is zero and the last
byte is not padded at all. `unpack_pack` and `unpack_pack_length_lt` are the
two sides of that: the string comes back unless it fills its last byte and
starts with a `0`, and in that case it comes back short.

`mergeLoop` runs on fuel, one unit for each merge; `mergeLoop_spec` shows that
the length of the list is always enough.

## Main definitions

* `mergeLoop`: The loop that merges the two lightest trees.
* `createHuffmanTree`: The tree of a list of leaves.
* `zip`, `unZip`: Compressing and decompressing a buffer.
* `unpack`: The bit string `unZip` reads back from the bytes.
* `walk`: The loop of `unZip` that reads the tree along the bit string.

## Theorems

* `createHuffmanTree_spec`: The tree has the leaves of the list.
* `table_eq`: The tree and the table of a buffer that is not empty.
* `zip_eq`: What `zip` computes on a buffer that is not empty.
* `walk_eq`: The loop is the decoder of the code tree.
* `unpack_pack`: Unpacking restores a string that is padded or starts with
  a one.
* `unpack_pack_length_lt`: Otherwise unpacking loses its leading zeros.
-/

namespace BlogSample

namespace Huffman

open DotNet BitPacking

/-- A `Compression` object: the code table and the tree of the latest
    `zip`. -/
structure Compression where
  huffmanCodes : Option (Dictionary UInt8 (List Char))
  huffmanTree : Node

/-- `new Compression()`. -/
def Compression.new : Compression := ⟨none, .null⟩

/-- The loop `while (nodes.Count > 1)`. `Remove` compares references, so the
    two nodes it takes out are the two just read. -/
def mergeLoop (s : ListSort Node Node.weight) : Nat → List Node → List Node
  | 0, nodes => nodes
  | fuel + 1, nodes =>
      if nodes.length > 1 then
        match s.sort nodes with
        | right :: left :: rest =>
            mergeLoop s fuel
              (rest ++ [Node.node left none right (right.weight + left.weight)])
        | sorted => sorted
      else nodes

/-- `CreateHuffmanTree(nodes)`. A single leaf becomes the right child of a
    root of its own. -/
def createHuffmanTree (s : ListSort Node Node.weight) (nodes : List Node) : Except Exn Node :=
  let nodes := match nodes with
    | [right] => [Node.node .null none right right.weight]
    | nodes => nodes
  match mergeLoop s nodes.length nodes with
  | node :: _ => pure node
  | [] => throw .argumentOutOfRange

/-- The leaves `zip` starts from: every byte of the buffer once, weighted by
    its count. -/
def nodeList (buffer : List UInt8) : List Node :=
  (groupBy id buffer).map (fun g => Node.node .null (some g.1) .null g.2.length)

/-- `BitArray.CopyTo(byte[], 0)` into `(Length + 7) / 8` bytes. -/
def copyTo (bitArray : List Bool) : List UInt8 :=
  (pack 8 bitArray).map UInt8.ofNat

/-- `Zip(buffer)`. Of its calls only `CreateHuffmanTree` can throw, before
    the object is changed. -/
def zip (s : ListSort Node Node.weight) (buffer : List UInt8) :
    Except Exn (Compression × List UInt8 × Nat) := do
  let huffmanTree ← createHuffmanTree s (nodeList buffer)
  let huffmanCodes ← huffmanTree.scanTree
  let codes ← buffer.mapM huffmanCodes.item
  let bitArray := (codes.flatten.map (fun c => c == '1')).reverse
  pure (⟨some huffmanCodes, huffmanTree⟩, copyTo bitArray, bitArray.length)

/-- `Convert.ToString(b, 2)` of a non-negative `short`. -/
def convertToString (b : Nat) : List Char :=
  (binary 16 b).map bitChar

/-- `ByteToBitString(b, isLastByte, bitLength)`. -/
def byteToBitString (b : Nat) (isLastByte : Bool) (bitLength : Nat) : List Char :=
  if isLastByte then
    (convertToString b).leftpad (bitLength % 8) '0'
  else
    let result := convertToString (b ||| 256)
    result.drop (result.length - 8)

/-- The bit string that `unZip` reads back from the bytes. -/
def unpack (buffer : List UInt8) (originalBitLength : Nat) : List Char :=
  (buffer.mapIdx (fun i x =>
    byteToBitString x.toNat (i == buffer.length - 1) originalBitLength)).reverse.flatten

/-- The loop of `UnZip`, standing at `cur` with the bytes found so far.
    Stepping from or to a `null` throws. -/
def walk (huffmanTree : Node) : Node → List UInt8 → List Char → Except Exn (List UInt8)
  | _, bitArray, [] => pure bitArray
  | cur, bitArray, bit :: bitString =>
      match cur with
      | .null => throw .nullReference
      | .node left _ right _ =>
          match (if bit == '1' then right else left) with
          | .null => throw .nullReference
          | .node _ (some c) _ _ => walk huffmanTree huffmanTree (bitArray ++ [c]) bitString
          | .node l none r w => walk huffmanTree (.node l none r w) bitArray bitString

/-- `UnZip(buffer, orginalBitLength)`. -/
def unZip (self : Compression) (buffer : List UInt8) (originalBitLength : Nat) :
    Except Exn (List UInt8) :=
  walk self.huffmanTree self.huffmanTree [] (unpack buffer originalBitLength)

/-! ### The tree -/

/-- What holds of a single node, and is kept when the two lightest nodes are
    merged, holds of the node that is left in the end. -/
theorem mergeLoop_induct (s : ListSort Node Node.weight) {P : List Node → Node → Prop}
    (hsingle : ∀ n, P [n] n)
    (hmerge : ∀ nodes right left rest n, (right :: left :: rest).Perm nodes →
      (right :: left :: rest).Pairwise (fun a b => a.weight ≤ b.weight) →
      P (rest ++ [Node.node left none right (right.weight + left.weight)]) n → P nodes n) :
    ∀ (fuel : Nat) (nodes : List Node), nodes ≠ [] → nodes.length ≤ fuel + 1 →
      ∃ n, mergeLoop s fuel nodes = [n] ∧ P nodes n := by
  intro fuel
  induction fuel with
  | zero =>
      intro nodes hne hlen
      have hpos := List.length_pos_iff.mpr hne
      rcases List.length_eq_one_iff.mp (by omega : nodes.length = 1) with ⟨n, rfl⟩
      exact ⟨n, rfl, hsingle n⟩
  | succ fuel ih =>
      intro nodes hne hlen
      have hpos := List.length_pos_iff.mpr hne
      rw [mergeLoop]
      by_cases hgt : nodes.length > 1
      · rw [if_pos hgt]
        -- The two lightest nodes are merged, so the list gets shorter by one.
        have hperm := s.perm nodes
        have hsorted := s.sorted nodes
        have hsize := hperm.length_eq
        rcases hs : s.sort nodes with _ | ⟨right, _ | ⟨left, rest⟩⟩
        · rw [hs, List.length_nil] at hsize
          omega
        · rw [hs, List.length_singleton] at hsize
          omega
        · rw [hs] at hperm hsorted hsize
          rw [List.length_cons, List.length_cons] at hsize
          rcases ih (rest ++ [Node.node left none right (right.weight + left.weight)])
            (List.append_ne_nil_of_right_ne_nil rest (List.cons_ne_nil _ _))
            (by rw [List.length_append, List.length_singleton]; omega) with ⟨n, hn, hP⟩
          exact ⟨n, hn, hmerge nodes right left rest n hperm hsorted hP⟩
      · rw [if_neg hgt]
        rcases List.length_eq_one_iff.mp (by omega : nodes.length = 1) with ⟨n, rfl⟩
        exact ⟨n, rfl, hsingle n⟩

/-- Merging leaves one tree with all the leaves of the list. A list of two or
    more ends in an inner node. -/
theorem mergeLoop_spec (s : ListSort Node Node.weight) :
    ∀ (fuel : Nat) (nodes : List Node), nodes ≠ [] → nodes.length ≤ fuel + 1 →
      ∃ n, mergeLoop s fuel nodes = [n] ∧ n.leaves.Perm (nodes.flatMap Node.leaves) ∧
        (nodes = [n] ∨ n.tree.IsBranch) := by
  refine mergeLoop_induct s (fun n => ⟨?_, Or.inl rfl⟩) ?_
  · rw [List.flatMap_singleton]
  · rintro nodes right left rest n hperm - ⟨hleaves, hcase⟩
    refine ⟨hleaves.trans ?_, Or.inr ?_⟩
    -- The merged pair carries the leaves of its two children.
    · refine List.Perm.trans ?_ (hperm.flatMap_right Node.leaves)
      simp only [List.flatMap_append, List.flatMap_cons, List.flatMap_nil,
        Node.leaves_inner, List.append_nil]
      refine List.perm_append_comm.trans ?_
      rw [← List.append_assoc]
      exact List.Perm.append_right _ List.perm_append_comm
    · rcases hcase with hone | hbr
      · rcases List.append_eq_singleton_iff.mp hone with ⟨_, hsing⟩ | ⟨_, hsing⟩
        · rw [← (List.cons.inj hsing).1]
          exact trivial
        · simp only [reduceCtorEq] at hsing
      · exact hbr

/-- The tree of a list of nodes that is not empty is an inner node with the
    leaves of the list. -/
theorem createHuffmanTree_spec (s : ListSort Node Node.weight) (nodes : List Node)
    (hne : nodes ≠ []) :
    ∃ n, createHuffmanTree s nodes = .ok n ∧ n.tree.IsBranch ∧
      n.leaves.Perm (nodes.flatMap Node.leaves) := by
  rcases nodes with _ | ⟨a, _ | ⟨b, rest⟩⟩
  · exact absurd rfl hne
  -- A single node hangs below a root of its own, and no merge runs.
  · refine ⟨Node.node .null none a a.weight, rfl, trivial, ?_⟩
    rw [Node.leaves_inner, List.flatMap_singleton]
    exact List.Perm.refl _
  · rcases mergeLoop_spec s (a :: b :: rest).length (a :: b :: rest) hne (Nat.le_succ _) with
      ⟨n, hn, hleaves, hcase⟩
    refine ⟨n, ?_, ?_, hleaves⟩
    · change (match mergeLoop s (a :: b :: rest).length (a :: b :: rest) with
        | node :: _ => Except.ok node
        | [] => Except.error Exn.argumentOutOfRange) = .ok n
      rw [hn]
    · rcases hcase with hone | hbr
      · simp only [List.cons.injEq, reduceCtorEq, and_false] at hone
      · exact hbr

theorem nodeList_leaves (buffer : List UInt8) :
    (nodeList buffer).flatMap Node.leaves = (groupBy id buffer).map Prod.fst := by
  rw [nodeList, List.flatMap_map]
  exact List.flatMap_pure_eq_map _ _

theorem nodeList_ne_nil {buffer : List UInt8} (h : buffer ≠ []) : nodeList buffer ≠ [] := by
  rcases List.exists_mem_of_ne_nil buffer h with ⟨x, hx⟩
  intro hnil
  have hmem := (mem_groupBy_fst id buffer x).mpr ⟨x, hx, rfl⟩
  rw [← nodeList_leaves, hnil] at hmem
  simp only [List.flatMap_nil, List.not_mem_nil] at hmem

/-! ### The bit string -/

theorem bitChar_beq (b : Bool) : (bitChar b == '1') = b := by
  cases b <;> rfl

/-- Looking up the symbols of a sequence one by one yields the bits that
    spell it. -/
theorem mapM_item_spells (t : CodeTree UInt8) (d : Dictionary UInt8 (List Char))
    (hd : d.entries = t.codes.map (fun p => (p.1, p.2.map bitChar))) :
    ∀ buffer : List UInt8, (∀ x ∈ buffer, x ∈ t.codes.map Prod.fst) →
      ∃ codes bits, buffer.mapM d.item = .ok codes ∧ t.Spells buffer bits ∧
        codes.flatten = bits.map bitChar := by
  intro buffer
  induction buffer with
  | nil => intro _; exact ⟨[], [], rfl, .nil, rfl⟩
  | cons x buffer ih =>
      intro hmem
      rcases ih (fun y hy => hmem y (List.mem_cons_of_mem x hy)) with ⟨codes, bits, hm, hsp, hfl⟩
      rcases List.mem_map.mp (hmem x List.mem_cons_self) with ⟨⟨y, c⟩, hc, rfl⟩
      have hitem : d.item y = .ok (c.map bitChar) := by
        rw [Dictionary.item_eq_ok_iff, hd]
        exact List.mem_map.mpr ⟨(y, c), hc, rfl⟩
      refine ⟨c.map bitChar :: codes, c ++ bits, ?_, .cons y c buffer bits hc hsp, ?_⟩
      · rw [List.mapM_cons, hitem, hm]
        rfl
      · rw [List.flatten_cons, hfl, List.map_append]

/-- The tree and the table of a buffer that is not empty: the leaves are its bytes,
    and the table holds their codes. -/
theorem table_eq (s : ListSort Node Node.weight) (buffer : List UInt8) (hne : buffer ≠ []) :
    ∃ n d, createHuffmanTree s (nodeList buffer) = .ok n ∧ n.scanTree = .ok d ∧
      n.tree.IsBranch ∧ n.leaves.Nodup ∧ (∀ x, x ∈ n.leaves ↔ x ∈ buffer) ∧
      d.entries = n.tree.codes.map (fun p => (p.1, p.2.map bitChar)) := by
  rcases createHuffmanTree_spec s (nodeList buffer) (nodeList_ne_nil hne) with
    ⟨n, hn, hbr, hleaves⟩
  rw [nodeList_leaves] at hleaves
  have hnd : n.leaves.Nodup := hleaves.nodup_iff.mpr (groupBy_fst_nodup id buffer)
  have hnull : n ≠ .null := by
    intro h
    rw [h] at hbr
    exact hbr
  have hmem (x : UInt8) : x ∈ n.leaves ↔ x ∈ buffer := by
    rw [hleaves.mem_iff, mem_groupBy_fst id buffer x]
    constructor
    · rintro ⟨y, hy, rfl⟩
      exact hy
    · exact fun hx => ⟨x, hx, rfl⟩
  rcases n.scanTree_eq hnull hnd with ⟨d, hd, hent⟩
  exact ⟨n, d, hn, hd, hbr, hnd, hmem, hent⟩

/-- What `zip` computes on a buffer that is not empty: a tree with the
    buffer's bytes at its leaves, the table of its codes, and the packed
    bits that spell the buffer. -/
theorem zip_eq (s : ListSort Node Node.weight) (buffer : List UInt8) (hne : buffer ≠ []) :
    ∃ n d bits, createHuffmanTree s (nodeList buffer) = .ok n ∧ n.scanTree = .ok d ∧
      n.tree.IsBranch ∧ n.leaves.Nodup ∧
      d.entries = n.tree.codes.map (fun p => (p.1, p.2.map bitChar)) ∧
      n.tree.Spells buffer bits ∧
      zip s buffer = .ok (⟨some d, n⟩, copyTo bits.reverse, bits.length) := by
  rcases table_eq s buffer hne with ⟨n, d, hn, hd, hbr, hnd, hmem, hent⟩
  -- Every byte of the buffer has a code.
  rcases mapM_item_spells n.tree d hent buffer (fun x hx => (hmem x).mpr hx) with
    ⟨codes, bits, hm, hsp, hfl⟩
  have hbits : codes.flatten.map (fun c => c == '1') = bits := by
    rw [hfl, List.map_map]
    exact (List.map_congr_left (fun b _ => bitChar_beq b)).trans (List.map_id bits)
  refine ⟨n, d, bits, hn, hd, hbr, hnd, hent, hsp, ?_⟩
  -- With a tree and its table the rest of `zip` cannot throw.
  have hzip : zip s buffer = (do
      let codes ← buffer.mapM d.item
      let bitArray := (codes.flatten.map (fun c => c == '1')).reverse
      pure (⟨some d, n⟩, copyTo bitArray, bitArray.length)) := by
    rw [zip, hn]
    change (n.scanTree >>= _) = _
    rw [hd]
    rfl
  rw [hzip, hm]
  change Except.ok (Compression.mk (some d) n,
    copyTo (codes.flatten.map (fun c => c == '1')).reverse,
    (codes.flatten.map (fun c => c == '1')).reverse.length) = _
  rw [hbits, List.length_reverse]

/-- The loop of `UnZip` is the decoder of the code tree; it throws where the
    decoder fails. The loop never stands at a leaf, as long as the root is
    none. -/
theorem walk_eq (root : Node) (hroot : ∀ a, root.tree ≠ .leaf a) :
    ∀ (bits : List Bool) (cur : Node) (acc : List UInt8), (∀ a, cur.tree ≠ .leaf a) →
      walk root cur acc (bits.map bitChar) =
        match root.tree.decodeFrom cur.tree bits with
        | some s => .ok (acc ++ s)
        | none => .error .nullReference := by
  intro bits
  induction bits with
  | nil =>
      intro cur acc _
      simp only [CodeTree.decodeFrom, List.append_nil, List.map_nil, walk]
      rfl
  | cons b bits ih =>
      intro cur acc hcur
      cases cur with
      | null => rfl
      | node left c right w =>
          cases c with
          | some a => exact absurd rfl (hcur a)
          | none =>
              have hside : (if bitChar b == '1' then right else left).tree
                  = (Node.node left none right w).tree.child b := by
                cases b <;> rfl
              rw [List.map_cons, walk, CodeTree.decodeFrom, ← hside]
              cases hn : (if bitChar b == '1' then right else left) with
              | null => rfl
              | node l c' r w' =>
                  cases c' with
                  | none => exact ih (Node.node l none r w') acc (fun a => by
                      simp only [Node.tree, ne_eq, reduceCtorEq, not_false_eq_true])
                  | some a =>
                      -- A leaf: its byte is emitted and the walk starts again.
                      simp only [Node.tree]
                      rw [ih root (acc ++ [a]) hroot]
                      cases root.tree.decodeFrom root.tree bits with
                      | none => rfl
                      | some s => simp only [Option.map_some, List.append_assoc, List.cons_append,
                          List.nil_append]

/-! ### Unpacking -/

theorem toNat_ofNat_ofBits (bs : List Bool) (h : bs.length ≤ 8) :
    (UInt8.ofNat (ofBits bs)).toNat = ofBits bs := by
  refine UInt8.toNat_ofNat_of_lt' (Nat.lt_of_lt_of_le (ofBits_lt bs) ?_)
  exact Nat.pow_le_pow_right (by omega) h

/-- Every byte but the last is expanded to its eight digits: the ninth bit
    set by `b |= 256` keeps the leading zeros, and is cut off again. -/
theorem byteToBitString_full (bs : List Bool) (h : bs.length = 8) (bitLength : Nat) :
    byteToBitString (UInt8.ofNat (ofBits bs)).toNat false bitLength
      = bs.reverse.map bitChar := by
  have hor : ofBits bs ||| 256 = ofBits (bs ++ [true]) := by
    have hlt := ofBits_lt bs
    rw [h] at hlt
    rw [ofBits_append_true, h]
    exact Nat.or_two_pow_eq_add_of_lt hlt
  have hdigits : convertToString (ofBits bs ||| 256) = '1' :: bs.reverse.map bitChar := by
    rw [convertToString, hor, binary_ofBits_of_last]
    · rw [List.reverse_append]; rfl
    · rw [List.length_append, h]; decide
    · rw [List.reverse_append]; rfl
  rw [byteToBitString, toNat_ofNat_ofBits bs (Nat.le_of_eq h), if_neg (by decide), hdigits]
  simp only [List.length_cons, List.length_map, List.length_reverse, h]
  rfl

/-- The last byte is expanded to `bitLength % 8` digits at least. -/
theorem byteToBitString_last (bs : List Bool) (h : bs.length ≤ 8) (bitLength : Nat) :
    byteToBitString (UInt8.ofNat (ofBits bs)).toNat true bitLength
      = ((binary 16 (ofBits bs)).leftpad (bitLength % 8) false).map bitChar := by
  rw [byteToBitString, toNat_ofNat_ofBits bs h, if_pos rfl, convertToString]
  simp only [List.leftpad, List.map_append, List.map_replicate, List.length_map]
  rfl

/-- What is read back from packed bits: the digits of the last group, padded
    to `bitLength % 8`, and then the other bits as they were. -/
theorem unpack_copyTo (bs : List Bool) (hne : bs ≠ []) (bitLength : Nat) :
    ∃ k, bs.length = 8 * k + (bs.drop (8 * k)).length ∧ 0 < (bs.drop (8 * k)).length ∧
      (bs.drop (8 * k)).length ≤ 8 ∧
      unpack (copyTo bs) bitLength
        = ((binary 16 (ofBits (bs.drop (8 * k)))).leftpad (bitLength % 8) false ++
            (bs.take (8 * k)).reverse).map bitChar := by
  rcases pack_eq 8 bs (by omega) hne with ⟨k, hlen, hpos, hle, hpack⟩
  refine ⟨k, hlen, hpos, hle, ?_⟩
  have hbytes : copyTo bs = (List.range k).map (fun i => UInt8.ofNat (ofBits (chunk 8 i bs))) ++
      [UInt8.ofNat (ofBits (bs.drop (8 * k)))] := by
    rw [copyTo, hpack, List.map_append, List.map_map]
    rfl
  have hfull : ∀ i, i < k → (chunk 8 i bs).length = 8 := fun i hi =>
    length_chunk 8 i bs (by
      have : 8 * (i + 1) ≤ 8 * k := Nat.mul_le_mul_left 8 hi
      omega)
  have hidx : (copyTo bs).mapIdx (fun i x =>
        byteToBitString x.toNat (i == (copyTo bs).length - 1) bitLength)
      = (List.range k).map (fun i => (chunk 8 i bs).reverse.map bitChar) ++
        [((binary 16 (ofBits (bs.drop (8 * k)))).leftpad (bitLength % 8) false).map bitChar] := by
    rw [hbytes]
    simp only [List.length_append, List.length_map, List.length_range, List.length_cons,
      List.length_nil, Nat.zero_add, Nat.add_sub_cancel, List.mapIdx_append, List.mapIdx_cons,
      List.mapIdx_nil, beq_self_eq_true, byteToBitString_last _ hle]
    congr 1
    -- Below the last index, each byte is a full group.
    refine List.ext_getElem (by simp only [List.length_mapIdx, List.length_map]) (fun i h₁ _ => ?_)
    have hi : i < k := by
      simpa only [List.length_mapIdx, List.length_map, List.length_range] using h₁
    simp only [List.getElem_mapIdx, List.getElem_map, List.getElem_range, beq_false_of_ne
      (Nat.ne_of_lt hi), byteToBitString_full _ (hfull i hi)]
  have hrest : ((List.range k).map (fun i => (chunk 8 i bs).reverse.map bitChar)).reverse.flatten
      = (bs.take (8 * k)).reverse.map bitChar := by
    rw [← flatten_chunks, List.reverse_flatten, List.map_flatten, List.map_reverse, List.map_map,
      List.map_map]
    rfl
  rw [unpack, hidx, List.reverse_append, List.flatten_append, hrest, List.map_append]
  simp only [List.reverse_cons, List.reverse_nil, List.nil_append, List.flatten_cons,
    List.flatten_nil, List.append_nil]

/-- The bit string comes back whenever it leaves room in its last byte, or
    starts with a one. -/
theorem unpack_pack (bits : List Bool) (hne : bits ≠ [])
    (h : bits.length % 8 ≠ 0 ∨ bits.head? = some true) :
    unpack (copyTo bits.reverse) bits.length = bits.map bitChar := by
  rcases unpack_copyTo bits.reverse (by simpa only [ne_eq, List.reverse_eq_nil_iff] using hne)
    bits.length with ⟨k, hlen, hpos, hle, hu⟩
  have hsplit := List.take_append_drop (8 * k) bits.reverse
  rw [hu]
  congr 1
  have hlast : (binary 16 (ofBits (bits.reverse.drop (8 * k)))).leftpad (bits.length % 8) false
      = (bits.reverse.drop (8 * k)).reverse := by
    rw [List.length_reverse] at hlen
    by_cases h8 : bits.length % 8 = 0
    -- The last byte is full, and only its top digit can save the others.
    · rw [h8]
      simp only [List.leftpad, Nat.zero_sub, List.replicate_zero, List.nil_append]
      refine binary_ofBits_of_last _ 16 (by omega) ?_
      rw [← h.resolve_left (fun hn => hn h8)]
      conv => rhs; rw [← List.reverse_reverse bits, ← hsplit, List.reverse_append]
      rw [List.head?_append_of_ne_nil]
      simpa only [ne_eq, List.reverse_eq_nil_iff] using List.ne_nil_of_length_pos hpos
    · rw [show bits.length % 8 = (bits.reverse.drop (8 * k)).length by omega]
      exact leftpad_binary_ofBits _ 16 (List.ne_nil_of_length_pos hpos) (by omega)
  rw [hlast, ← List.reverse_append, hsplit, List.reverse_reverse]

/-- A bit string that fills its last byte and starts with a zero comes back
    without its leading zeros. -/
theorem unpack_pack_length_lt (bits : List Bool) (h8 : bits.length % 8 = 0)
    (h0 : bits.head? = some false) :
    ∃ u : List Bool, unpack (copyTo bits.reverse) bits.length = u.map bitChar ∧
      u.length < bits.length := by
  have hne : bits ≠ [] := by
    rintro rfl
    simp only [List.head?_nil, reduceCtorEq] at h0
  rcases unpack_copyTo bits.reverse (by simpa only [ne_eq, List.reverse_eq_nil_iff] using hne)
    bits.length with ⟨k, hlen, hpos, hle, hu⟩
  refine ⟨_, hu, ?_⟩
  have hsplit := List.take_append_drop (8 * k) bits.reverse
  have hlens := congrArg List.length hsplit
  rw [List.length_reverse] at hlen
  rw [List.length_append, List.length_reverse] at hlens
  have hshort : (binary 16 (ofBits (bits.reverse.drop (8 * k)))).length
      < (bits.reverse.drop (8 * k)).length := by
    refine binary_ofBits_length_lt _ 16 (by omega) (by omega) ?_
    rw [← h0]
    conv => rhs; rw [← List.reverse_reverse bits, ← hsplit, List.reverse_append]
    rw [List.head?_append_of_ne_nil]
    simpa only [ne_eq, List.reverse_eq_nil_iff] using List.ne_nil_of_length_pos hpos
  rw [h8]
  simp only [List.leftpad, Nat.zero_sub, List.replicate_zero, List.nil_append, List.length_append,
    List.length_reverse]
  omega

end Huffman

end BlogSample
