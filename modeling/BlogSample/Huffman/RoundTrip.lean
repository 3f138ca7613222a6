import BlogSample.Huffman.Compression

/-!
# Huffman Round Trip

When unzipping on the object that zipped restores the buffer.

The decoder is right and the packing is right; the one thing that can go
wrong is the width of the last byte. A bit string whose length is a multiple
of eight fills that byte, `bitLength % 8` is then zero, and the byte is
printed without its leading zeros. So the round trip fails exactly when the
code lengths add up to a multiple of eight and the first code starts with a
zero, and it fails whatever the shortened string happens to decode to: a
string shorter than the code of the buffer cannot decode to the buffer.

## Main definitions

* `RoundTrips`: Zipping and unzipping on one object restores the buffer.
* `codeTable`, `code`: The codes a buffer is zipped with.
* `codeLength`: The bits a buffer is zipped to.

## Theorems

* `spells_length`: The spelled bits have the code length of the buffer.
* `spells_head`: They start as the code of the first byte does.
* `unZip_eq_ok_iff`: What the decoder returns on an unpacked string.
* `roundTrips_iff_bits`: When the round trip succeeds, on the packed bits.
* `roundTrips_iff`: When the round trip succeeds.
* `roundTrips_fails`: A buffer of eight bytes that does not come back.
-/

namespace BlogSample

namespace Huffman

open DotNet BitPacking

/-- Zipping the buffer and unzipping the result on the same object returns
    the buffer. -/
def RoundTrips (s : ListSort Node Node.weight) (buffer : List UInt8) : Prop :=
  ∃ self bytes bits, zip s buffer = .ok (self, bytes, bits) ∧ unZip self bytes bits = .ok buffer

/-- The code table of a buffer. -/
def codeTable (s : ListSort Node Node.weight) (buffer : List UInt8) :
    Except Exn (Dictionary UInt8 (List Char)) := do
  let huffmanTree ← createHuffmanTree s (nodeList buffer)
  huffmanTree.scanTree

/-- The code of a byte in the table of a buffer. -/
def code (s : ListSort Node Node.weight) (buffer : List UInt8) (x : UInt8) : List Char :=
  match codeTable s buffer with
  | .ok d => (d.entries.lookup x).getD []
  | .error _ => []

/-- The number of bits the buffer takes with its own code table. -/
def codeLength (s : ListSort Node Node.weight) (buffer : List UInt8) : Nat :=
  (buffer.map (fun x => (code s buffer x).length)).sum

theorem code_eq {s : ListSort Node Node.weight} {buffer : List UInt8} {n : Node}
    {d : Dictionary UInt8 (List Char)} (hn : createHuffmanTree s (nodeList buffer) = .ok n)
    (hd : n.scanTree = .ok d)
    (hent : d.entries = n.tree.codes.map (fun p => (p.1, p.2.map bitChar))) {x : UInt8}
    {c : List Bool} (hc : (x, c) ∈ n.tree.codes) : code s buffer x = c.map bitChar := by
  have htable : codeTable s buffer = .ok d := by
    rw [codeTable, hn]
    exact hd
  have hlookup : d.entries.lookup x = some (c.map bitChar) := by
    rw [Dictionary.lookup_eq_some_iff d.entries d.nodup, hent]
    exact List.mem_map.mpr ⟨(x, c), hc, rfl⟩
  rw [code, htable]
  simp only [hlookup, Option.getD_some]

/-- The bits that spell a sequence are as many as its codes have together. -/
theorem spells_length {t : CodeTree UInt8} (f : UInt8 → List Char)
    (hf : ∀ x c, (x, c) ∈ t.codes → f x = c.map bitChar) {l : List UInt8} {bits : List Bool}
    (h : t.Spells l bits) : bits.length = (l.map (fun x => (f x).length)).sum := by
  induction h with
  | nil => rfl
  | cons x c l bits hc _ ih =>
      rw [List.length_append, ih, List.map_cons, List.sum_cons, hf x c hc, List.length_map]

/-- The bits that spell a sequence start as the code of its first symbol
    does. -/
theorem spells_head {t : CodeTree UInt8} (ht : t.IsBranch) (f : UInt8 → List Char)
    (hf : ∀ x c, (x, c) ∈ t.codes → f x = c.map bitChar) {x : UInt8} {l : List UInt8}
    {bits : List Bool} (h : t.Spells (x :: l) bits) :
    (f x).head? = bits.head?.map bitChar := by
  cases h with
  | cons _ c _ bits hc _ =>
      rw [hf x c hc]
      cases c with
      | nil => exact absurd rfl (CodeTree.code_ne_nil ht hc)
      | cons b c => rfl

/-- On an unpacked bit string, `unZip` returns what the decoder accepts. -/
theorem unZip_eq_ok_iff {self : Compression} (ht : self.huffmanTree.tree.IsBranch)
    {bytes : List UInt8} {bitLength : Nat} {bits : List Bool}
    (hu : unpack bytes bitLength = bits.map bitChar) (l : List UInt8) :
    unZip self bytes bitLength = .ok l ↔
      ∃ c r, self.huffmanTree.tree.Spells l c ∧ bits = c ++ r ∧
        (r = [] ∨ (self.huffmanTree.tree.descend r).IsBranch) := by
  have hroot : ∀ a, self.huffmanTree.tree ≠ .leaf a := by
    intro a ha
    rw [ha] at ht
    exact ht
  rw [← CodeTree.decodeFrom_eq_some_iff ht, unZip, hu, walk_eq _ hroot bits _ [] hroot]
  cases self.huffmanTree.tree.decodeFrom self.huffmanTree.tree bits with
  | none => simp only [reduceCtorEq]
  | some s => simp only [List.nil_append, Except.ok.injEq, Option.some.injEq]

/-- Zipping and unzipping restores a buffer exactly when its bits leave room
    in the last byte or start with a one. -/
theorem roundTrips_iff_bits {s : ListSort Node Node.weight} {buffer : List UInt8} {n : Node}
    {d : Dictionary UInt8 (List Char)} {bits : List Bool} (hbr : n.tree.IsBranch)
    (hnd : n.leaves.Nodup) (hsp : n.tree.Spells buffer bits) (hne : bits ≠ [])
    (hzip : zip s buffer = .ok (⟨some d, n⟩, copyTo bits.reverse, bits.length)) :
    RoundTrips s buffer ↔ bits.length % 8 ≠ 0 ∨ bits.head? = some true := by
  -- The object, the bytes and the bit count that `zip` returns are known.
  have hround : RoundTrips s buffer ↔
      unZip ⟨some d, n⟩ (copyTo bits.reverse) bits.length = .ok buffer := by
    constructor
    · rintro ⟨self, bytes, k, hz, hu⟩
      rw [hzip, Except.ok.injEq, Prod.mk.injEq, Prod.mk.injEq] at hz
      rw [hz.1, hz.2.1, hz.2.2]
      exact hu
    · intro hu
      exact ⟨_, _, _, hzip, hu⟩
  rw [hround]
  by_cases hgood : bits.length % 8 ≠ 0 ∨ bits.head? = some true
  -- The string comes back, and it spells the buffer.
  · simp only [hgood, iff_true]
    refine (unZip_eq_ok_iff hbr (unpack_pack bits hne hgood) buffer).mpr ?_
    exact ⟨bits, [], hsp, (List.append_nil bits).symm, Or.inl rfl⟩
  · simp only [hgood, iff_false]
    rw [not_or, not_ne_iff] at hgood
    have h0 : bits.head? = some false := by
      cases hb : bits.head? with
      | none => exact absurd (List.head?_eq_none_iff.mp hb) hne
      | some v =>
          cases v with
          | false => rfl
          | true => exact absurd hb hgood.2
    rcases unpack_pack_length_lt bits hgood.1 h0 with ⟨u, hu, hlt⟩
    intro hok
    -- Whole codes of the buffer would need all the bits that were packed.
    rcases (unZip_eq_ok_iff hbr hu buffer).mp hok with ⟨c, r, hspc, rfl, -⟩
    rw [CodeTree.Spells.unique hnd hspc hsp, List.length_append] at hlt
    omega

theorem spells_ne_nil {t : CodeTree UInt8} (ht : t.IsBranch) {b : UInt8} {bs : List UInt8}
    {bits : List Bool} (h : t.Spells (b :: bs) bits) : bits ≠ [] := by
  cases h with
  | cons _ c _ _ hc _ =>
      intro hnil
      exact CodeTree.code_ne_nil ht hc (List.append_eq_nil_iff.mp hnil).1

/-- Zipping and unzipping restores a buffer exactly when its code length
    leaves room in the last byte, or the code of its first byte starts with
    a one. This is so for every order `List.Sort` may leave equal weights
    in. -/
theorem roundTrips_iff (s : ListSort Node Node.weight) (b : UInt8) (bs : List UInt8) :
    RoundTrips s (b :: bs) ↔
      codeLength s (b :: bs) % 8 ≠ 0 ∨ (code s (b :: bs) b).head? = some '1' := by
  rcases zip_eq s (b :: bs) (List.cons_ne_nil b bs) with
    ⟨n, d, bits, hn, hd, hbr, hnd, hent, hsp, hzip⟩
  have hcode : ∀ x c, (x, c) ∈ n.tree.codes → code s (b :: bs) x = c.map bitChar :=
    fun x c hc => code_eq hn hd hent hc
  have hlen : bits.length = codeLength s (b :: bs) := spells_length _ hcode hsp
  have hhead : (code s (b :: bs) b).head? = bits.head?.map bitChar := spells_head hbr _ hcode hsp
  have hone : bits.head?.map bitChar = some '1' ↔ bits.head? = some true := by
    rcases bits.head? with _ | (_ | _)
    · simp only [Option.map_none, reduceCtorEq]
    · exact iff_of_false (by decide) (by decide)
    · exact iff_of_true rfl rfl
  rw [roundTrips_iff_bits hbr hnd hsp (spells_ne_nil hbr hsp) hzip, ← hlen, hhead, hone]

/-- Seven times one byte and once another compress to the eight bits
    `00000001`, stored as the byte one; it is printed as the single digit
    `1`, and the seven bytes are lost. -/
theorem roundTrips_fails :
    (zip (insertionSort Node Node.weight) [97, 97, 97, 97, 97, 97, 97, 98]).map
        (fun r => (r.2, unZip r.1 r.2.1 r.2.2)) = .ok (([1], 8), .ok [98]) ∧
      ¬ RoundTrips (insertionSort Node Node.weight) [97, 97, 97, 97, 97, 97, 97, 98] := by
  have hrun : (zip (insertionSort Node Node.weight) [97, 97, 97, 97, 97, 97, 97, 98]).map
      (fun r => (r.2, unZip r.1 r.2.1 r.2.2)) = .ok (([1], 8), .ok [98]) := by rfl
  refine ⟨hrun, ?_⟩
  rintro ⟨self, bytes, bits, hz, hu⟩
  rw [hz] at hrun
  simp only [Except.map, hu, Except.ok.injEq, Prod.mk.injEq] at hrun
  exact absurd hrun.2 (by decide)

end Huffman

end BlogSample
