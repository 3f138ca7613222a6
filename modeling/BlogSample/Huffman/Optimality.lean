import BlogSample.Huffman.Decoding
import BlogSample.Theory.OptimalCode

/-!
# The Code Table is Optimal

No prefix code for the bytes of a buffer spells the buffer in fewer bits than
the code table of the buffer does.

The weight of a node is how often the bytes below it occur, so the loop that
merges nodes merges the two least weights, and the bits that the codes take
altogether grow with each merge by its weight.

## Main definitions

* `occurrences`: How often the bytes of a tree occur.
* `bitCount`: The bits that the codes of a tree take.
* `codeOf`: The code of a byte in a tree.

## Theorems

* `mergeLoop_merges`: The loop merges weights, and the bits are the cost.
* `spells_length_eq`, `bitCount_eq`: The bits of a message and of a tree.
* `zip_optimal`: `Zip` spells the buffer in as few bits as any prefix code.
-/

namespace BlogSample

namespace Huffman

open DotNet OptimalCode

/-- How often the bytes of a tree occur. -/
def occurrences (count : UInt8 → Nat) (n : Node) : Nat :=
  (n.leaves.map count).sum

/-- The bits that the codes of a tree take. -/
def bitCount (count : UInt8 → Nat) (n : Node) : Nat :=
  (n.tree.codes.map (fun p => count p.1 * p.2.length)).sum

variable (count : UInt8 → Nat)

theorem occurrences_inner (left right : Node) (w : Nat) :
    occurrences count (.node left none right w) =
      occurrences count left + occurrences count right := by
  unfold occurrences
  rw [Node.leaves_inner, List.map_append, List.sum_append]

/-- One more bit for each byte below. -/
theorem sum_codes_cons (codes : List (UInt8 × List Bool)) (b : Bool) :
    ((codes.map (fun p => (p.1, b :: p.2))).map (fun p => count p.1 * p.2.length)).sum =
      (codes.map (fun p => count p.1 * p.2.length)).sum +
        ((codes.map Prod.fst).map count).sum := by
  induction codes with
  | nil => rfl
  | cons p codes ih =>
      simp only [List.map_cons, List.sum_cons, List.length_cons, ih, Nat.mul_succ]
      omega

theorem bitCount_inner (left right : Node) (w : Nat) :
    bitCount count (.node left none right w) =
      bitCount count left + bitCount count right +
        (occurrences count left + occurrences count right) := by
  unfold bitCount
  change ((left.tree.codes.map (fun p => (p.1, false :: p.2)) ++
    right.tree.codes.map (fun p => (p.1, true :: p.2))).map _).sum = _
  rw [List.map_append, List.sum_append, sum_codes_cons, sum_codes_cons]
  unfold occurrences Node.leaves
  omega

/-- The loop merges the weights, and the bits that the codes take are the cost. -/
theorem mergeLoop_merges (s : ListSort Node Node.weight) :
    ∀ (fuel : Nat) (nodes : List Node), nodes ≠ [] → nodes.length ≤ fuel + 1 →
      ∃ n, mergeLoop s fuel nodes = [n] ∧
        ((∀ m ∈ nodes, m.weight = occurrences count m) →
          ∃ c, Merges (nodes.map Node.weight) c ∧
            bitCount count n = c + (nodes.map (bitCount count)).sum) := by
  refine mergeLoop_induct s (fun n _ => ⟨0, .single _, by simp⟩) ?_
  intro nodes right left rest n hperm hsorted ih hweight
  have hright : right.weight = occurrences count right :=
    hweight right (hperm.mem_iff.mp List.mem_cons_self)
  have hleft : left.weight = occurrences count left :=
    hweight left (hperm.mem_iff.mp (List.mem_cons_of_mem _ List.mem_cons_self))
  rcases List.pairwise_cons.mp hsorted with ⟨hle, hsorted⟩
  have hrest := (List.pairwise_cons.mp hsorted).1
  -- The merged node weighs what its bytes weigh.
  have hmerged : ∀ n ∈ rest ++ [Node.node left none right (right.weight + left.weight)],
      n.weight = occurrences count n := by
    intro n hn
    rcases List.mem_append.mp hn with hn | hn
    · exact hweight n (hperm.mem_iff.mp (List.mem_cons_of_mem _ (List.mem_cons_of_mem _ hn)))
    · rw [List.mem_singleton.mp hn, occurrences_inner, ← hleft, ← hright]
      exact Nat.add_comm _ _
  rcases ih hmerged with ⟨c, hmerges, hbits⟩
  refine ⟨c + (right.weight + left.weight), ?_, ?_⟩
  · have hweights : ((nodes.map Node.weight : List ℕ) : Multiset ℕ) =
        right.weight ::ₘ left.weight ::ₘ (rest.map Node.weight : Multiset ℕ) :=
      Multiset.coe_eq_coe.mpr (hperm.map Node.weight).symm
    rw [hweights]
    refine .merge _ _ _ c (hle left List.mem_cons_self) (fun x hx => ?_) ?_
    · rcases List.mem_map.mp (Multiset.mem_coe.mp hx) with ⟨m, hm, rfl⟩
      exact hrest m hm
    · rw [List.map_append, ← Multiset.coe_add, Multiset.add_comm] at hmerges
      exact hmerges
  -- The leaves of the merged pair are one bit deeper than before.
  · rw [hbits, ← (hperm.map (bitCount count)).sum_eq]
    simp only [List.map_append, List.map_cons, List.map_nil, List.sum_append,
      List.sum_cons, List.sum_nil, bitCount_inner]
    omega

theorem length_filter_eq_count (buffer : List UInt8) (x : UInt8) :
    (buffer.filter (fun y => id y = x)).length = buffer.count x := by
  rw [List.count_eq_length_filter]
  refine congrArg List.length (List.filter_congr (fun y _ => ?_))
  exact (beq_eq_decide y x).symm

/-- The weights that `Zip` starts from are those of the distinct bytes. -/
theorem nodeList_weights (buffer : List UInt8) :
    (((nodeList buffer).map Node.weight : List ℕ) : Multiset ℕ) =
      buffer.toFinset.val.map (fun x => buffer.count x) := by
  have hkeys : (((buffer.map id).eraseDups : List UInt8) : Multiset UInt8) =
      buffer.toFinset.val := by
    rw [List.map_id, List.toFinset_val, Multiset.coe_eq_coe]
    refine (List.perm_ext_iff_of_nodup (nodup_eraseDups buffer) buffer.nodup_dedup).mpr
      (fun x => ?_)
    rw [List.mem_eraseDups, List.mem_dedup]
  rw [← hkeys, Multiset.map_coe]
  unfold nodeList groupBy
  rw [List.map_map, List.map_map]
  exact congrArg _ (List.map_congr_left (fun x _ => length_filter_eq_count buffer x))

/-- The leaves that `Zip` starts from are weighted by how often their bytes occur, and
    take no bits yet. -/
theorem nodeList_spec (buffer : List UInt8) : ∀ n ∈ nodeList buffer,
    n.weight = occurrences (fun x => buffer.count x) n ∧
      bitCount (fun x => buffer.count x) n = 0 := by
  intro n hn
  unfold nodeList groupBy at hn
  rw [List.map_map] at hn
  rcases List.mem_map.mp hn with ⟨x, -, rfl⟩
  exact ⟨length_filter_eq_count buffer x, rfl⟩

/-- The code of a byte in a tree. -/
def codeOf (n : Node) (x : UInt8) : List Bool :=
  (n.tree.codes.lookup x).getD []

theorem codeOf_eq {n : Node} (hnd : n.leaves.Nodup) {x : UInt8} {c : List Bool}
    (hc : (x, c) ∈ n.tree.codes) : codeOf n x = c := by
  unfold codeOf
  rw [(Dictionary.lookup_eq_some_iff n.tree.codes hnd x c).mpr hc]
  rfl

/-- A message takes as many bits as its codes have. -/
theorem spells_length_eq {n : Node} (hnd : n.leaves.Nodup) {message : List UInt8}
    {bits : List Bool} (h : n.tree.Spells message bits) :
    bits.length = ∑ x ∈ message.toFinset, message.count x * (codeOf n x).length := by
  -- First along the message, then for each byte as often as it occurs.
  have hlist : bits.length = (message.map (fun x => (codeOf n x).length)).sum := by
    induction h with
    | nil => rfl
    | cons x c message bits hc _ ih =>
        rw [List.length_append, ih, List.map_cons, List.sum_cons, codeOf_eq hnd hc]
  rw [hlist, Finset.sum_list_map_count]
  exact Finset.sum_congr rfl (fun x _ => smul_eq_mul _ _)

/-- So do the codes of the buffer altogether. -/
theorem bitCount_eq {n : Node} (hnd : n.leaves.Nodup) {buffer : List UInt8}
    (hmem : ∀ x, x ∈ n.leaves ↔ x ∈ buffer) :
    bitCount (fun x => buffer.count x) n =
      ∑ x ∈ buffer.toFinset, buffer.count x * (codeOf n x).length := by
  have hset : buffer.toFinset = n.leaves.toFinset := by
    ext x
    rw [List.mem_toFinset, List.mem_toFinset, hmem]
  rw [hset, List.sum_toFinset _ hnd]
  unfold bitCount Node.leaves
  rw [List.map_map]
  refine congrArg List.sum (List.map_congr_left (fun p hp => ?_))
  rw [Function.comp_apply, codeOf_eq hnd hp]

/-- The tree of two leaves or more is what the loop ends with. -/
theorem createHuffmanTree_of_mergeLoop {s : ListSort Node Node.weight} {nodes : List Node}
    (h : 2 ≤ nodes.length) {n : Node} (hn : mergeLoop s nodes.length nodes = [n]) :
    createHuffmanTree s nodes = .ok n := by
  rcases nodes with _ | ⟨a, _ | ⟨b, rest⟩⟩
  · exact absurd h (by decide)
  · exact absurd h (Nat.lt_irrefl 1)
  · rw [createHuffmanTree, hn]
    · rfl
    · exact fun right hone => List.cons_ne_nil b rest (List.cons.inj hone).2

/-- The bits that `Zip` returns are those that the code table takes for the bytes of
    the buffer, and no prefix code for these bytes takes fewer. -/
theorem zip_optimal (s : ListSort Node Node.weight) (buffer : List UInt8)
    (h : 2 ≤ buffer.toFinset.card) :
    ∃ self bytes bitLength d code, zip s buffer = .ok (self, bytes, bitLength) ∧
      self.huffmanTree.scanTree = .ok d ∧
      (∀ x ∈ buffer, d.tryGetValue x = some ((code x).map bitChar)) ∧
      PrefixFree buffer.toFinset code ∧
      bitLength = ∑ x ∈ buffer.toFinset, buffer.count x * (code x).length ∧
      ∀ code', PrefixFree buffer.toFinset code' →
        bitLength ≤ ∑ x ∈ buffer.toFinset, buffer.count x * (code' x).length := by
  have hne : buffer ≠ [] := by
    rintro rfl
    exact absurd h (by decide)
  have hsize : (nodeList buffer).length = buffer.toFinset.card := by
    have hcard := congrArg Multiset.card (nodeList_weights buffer)
    rw [Multiset.coe_card, List.length_map, Multiset.card_map] at hcard
    exact hcard
  have hspec := nodeList_spec buffer
  rcases mergeLoop_merges (fun x => buffer.count x) s (nodeList buffer).length (nodeList buffer)
    (nodeList_ne_nil hne) (Nat.le_succ _) with ⟨n, hloop, hcost⟩
  rcases hcost (fun n hn => (hspec n hn).1) with ⟨c, hmerges, hbits⟩
  have hn := createHuffmanTree_of_mergeLoop (by rw [hsize]; exact h) hloop
  -- The tree, the table and the bits are those of the same call.
  rcases zip_eq s buffer hne with ⟨n₁, d, bits, hn₁, hd, -, hnd, hent, hsp, hzip⟩
  rcases table_eq s buffer hne with ⟨n₂, _, hn₂, -, -, -, hmem, -⟩
  rw [hn] at hn₁ hn₂
  cases hn₁
  cases hn₂
  have hcode {x : UInt8} (hx : x ∈ buffer) : (x, codeOf n x) ∈ n.tree.codes := by
    rcases List.mem_map.mp ((hmem x).mpr hx) with ⟨⟨_, c⟩, hc, rfl⟩
    rw [codeOf_eq hnd hc]
    exact hc
  have hlength := spells_length_eq hnd hsp
  refine ⟨_, _, _, d, codeOf n, hzip, hd, fun x hx => ?_, fun x hx y hy hxy hpre => ?_, hlength,
    fun code' hcode' => ?_⟩
  · exact (tryGetValue_table hent x _).mpr ⟨codeOf n x, hcode hx, rfl⟩
  · exact hxy (CodeTree.eq_of_isPrefix (hcode (List.mem_toFinset.mp hx))
      (hcode (List.mem_toFinset.mp hy)) hpre).1
  -- The leaves take no bits before the first merge.
  · have hzero : ((nodeList buffer).map (bitCount (fun x => buffer.count x))).sum = 0 := by
      refine List.sum_eq_zero (fun b hb => ?_)
      rcases List.mem_map.mp hb with ⟨m, hm, rfl⟩
      exact (hspec m hm).2
    rw [nodeList_weights] at hmerges
    rw [hlength, ← bitCount_eq hnd hmem, hbits, hzero]
    exact hmerges.le_of_prefixFree hcode'

/-- The bytes of a word with three letters. -/
def banana : List UInt8 :=
  [98, 97, 110, 97, 110, 97]

theorem zip_optimal_banana :
    ∃ self bytes bitLength d code,
      zip (insertionSort Node Node.weight) banana = .ok (self, bytes, bitLength) ∧
      self.huffmanTree.scanTree = .ok d ∧
      (∀ x ∈ banana, d.tryGetValue x = some ((code x).map bitChar)) ∧
      PrefixFree banana.toFinset code ∧
      bitLength = ∑ x ∈ banana.toFinset, banana.count x * (code x).length ∧
      ∀ code', PrefixFree banana.toFinset code' →
        bitLength ≤ ∑ x ∈ banana.toFinset, banana.count x * (code' x).length :=
  zip_optimal (insertionSort Node Node.weight) banana (by decide)

end Huffman

end BlogSample
