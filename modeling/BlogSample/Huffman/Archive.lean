import BlogSample.Huffman.RoundTrip
import BlogSample.Theory.Codec
import BlogSample.Theory.Transition

/-!
# Huffman Archives

Zipping files to archives and unzipping archives to files, with any number of
`Compression` objects over one file system.

An archive holds the code table and the bit count in front of the packed bits.
Serialising that header and reading it back is the work of a JSON library and
of the .NET binary writer, which are taken as a codec of the header: the only
thing relied on is that the reader takes back what the writer wrote.

`unZipFile` reads the header and uses only the bit count of it. The tree it
walks is the one the object kept from its own latest `zip`. So an archive is
restored exactly when that tree happens to spell the file the way the archive
does, and a fresh object, which has no tree, restores nothing.

The run is over the calls. Beside the objects and the files a state remembers
which paths hold an archive and what file it was made from; that is the only
thing the claim of an archive being restored needs, and no call reads it.

## Main definitions

* `CompressInfo`: The header of an archive.
* `zipFile`, `unZipFile`: The two calls.
* `State`, `Call`, `step`: Runs of calls.
* `Restores`: The call writes back the file the archive was made from.
* `SpellsAs`: A tree reads a bit string back as a file.

## Theorems

* `reachable_consistent`: Archives are what `zip` made of their files.
* `unZipFile_restores_iff`: When an archive is restored.
* `fresh_object_fails`: A fresh object does not restore an archive.
-/

namespace BlogSample

namespace Huffman

open DotNet BitPacking Transition

/-- The header of an archive. -/
structure CompressInfo where
  huffmanCodes : Option (Dictionary UInt8 (List Char))
  compressionBitLength : Nat

/-- The contents of the files that exist. -/
abbrev Files := String → Option (List UInt8)

/-- `File.ReadAllBytes(path)`, or opening a stream to read from. -/
def readAllBytes (files : Files) (path : String) : Except Exn (List UInt8) :=
  match files path with
  | some bytes => pure bytes
  | none => throw .fileNotFound

/-- `File.WriteAllBytes(path, bytes)`, or creating a file and filling it. -/
def writeAllBytes (files : Files) (path : String) (bytes : List UInt8) : Files :=
  fun p => if p = path then some bytes else files p

section Calls

variable (s : ListSort Node Node.weight) (fmt : Codec CompressInfo)

/-- `ZipFile(srcFile, desFile)`. It throws before it changes anything. -/
def zipFile (files : Files) (srcFile desFile : String) : Except Exn (Compression × Files) := do
  let buffer ← readAllBytes files srcFile
  let (self, compressBuffer, bitLength) ← zip s buffer
  let compressInfo := { huffmanCodes := self.huffmanCodes, compressionBitLength := bitLength }
  pure (self, writeAllBytes files desFile (fmt.write compressInfo ++ compressBuffer))

/-- `UnZipFile(srcFile, desFile)`. The code table in the header is not
    used. -/
def unZipFile (self : Compression) (files : Files) (srcFile desFile : String) :
    Except Exn Files := do
  let stream ← readAllBytes files srcFile
  match fmt.read stream with
  | none => throw .invalidData
  | some (compressInfo, buffer) =>
      let bytes ← unZip self buffer compressInfo.compressionBitLength
      pure (writeAllBytes files desFile bytes)

/-- The objects, the files, and what file each archive was made from. -/
structure State where
  objects : Nat → Compression
  files : Files
  origin : String → Option (List UInt8)

/-- The calls, each on some object. -/
inductive Call where
  | zipFile (object : Nat) (srcFile desFile : String)
  | unZipFile (object : Nat) (srcFile desFile : String)

/-- The state after a call. A call that throws leaves objects and files as
    they were. -/
def step (σ : State) : Call → State
  | .zipFile o srcFile desFile =>
      match zipFile s fmt σ.files srcFile desFile with
      | .error _ => σ
      | .ok (self, files) =>
          { objects := fun i => if i = o then self else σ.objects i
            files := files
            origin := fun p => if p = desFile then σ.files srcFile else σ.origin p }
  | .unZipFile o srcFile desFile =>
      match unZipFile fmt (σ.objects o) σ.files srcFile desFile with
      | .error _ => σ
      | .ok files =>
          { σ with files := files, origin := fun p => if p = desFile then none else σ.origin p }

/-- Runs of calls on fresh objects, from any files. -/
def archives : System State Call :=
  System.ofFn (fun σ => (∀ o, σ.objects o = Compression.new) ∧ ∀ p, σ.origin p = none)
    (fun σ c => some (step s fmt σ c))

end Calls

/-- The call completes and writes the content to its destination. -/
def Restores (fmt : Codec CompressInfo) (σ : State) (o : Nat) (srcFile desFile : String)
    (content : List UInt8) : Prop :=
  ∃ files, unZipFile fmt (σ.objects o) σ.files srcFile desFile = .ok files ∧
    files desFile = some content

/-- The bit string of a file: the codes of its bytes, in its own table. -/
def bitString (s : ListSort Node Node.weight) (content : List UInt8) : List Char :=
  content.flatMap (code s content)

/-- The bit string is made of the codes the tree gives to the bytes of the
    content, with at most a rest that is too short to complete a code. -/
def SpellsAs (n : Node) (content : List UInt8) (bits : List Char) : Prop :=
  ∃ c r, n.tree.Spells content c ∧ bits = (c ++ r).map bitChar ∧
    (r = [] ∨ (n.tree.descend r).IsBranch)

/-! ### What holds on every run -/

/-- An object has no tree or one that is an inner node. -/
def Compression.Settled (self : Compression) : Prop :=
  self.huffmanTree = .null ∨ self.huffmanTree.tree.IsBranch

/-- Every object is settled, and every archive is what `zip` makes of the
    file it comes from. -/
structure Consistent (s : ListSort Node Node.weight) (fmt : Codec CompressInfo) (σ : State) :
    Prop where
  settled : ∀ o, (σ.objects o).Settled
  archive : ∀ p content, σ.origin p = some content →
    ∃ self bytes bits, zip s content = .ok (self, bytes, bits) ∧
      σ.files p = some (fmt.write ⟨self.huffmanCodes, bits⟩ ++ bytes)

theorem zip_settled {s : ListSort Node Node.weight} {buffer bytes : List UInt8} {bits : Nat}
    {self : Compression} (h : zip s buffer = .ok (self, bytes, bits)) :
    buffer ≠ [] ∧ self.Settled := by
  have hne : buffer ≠ [] := by
    rintro rfl
    exact absurd h (by rw [show zip s [] = .error .argumentOutOfRange from rfl]; exact nofun)
  rcases zip_eq s buffer hne with ⟨n, d, bs, _, _, hbr, _, _, _, hzip⟩
  rw [hzip, Except.ok.injEq, Prod.mk.injEq] at h
  refine ⟨hne, Or.inr ?_⟩
  rw [← h.1]
  exact hbr

/-- A successful `zipFile` read its source, zipped it, and wrote header and
    bytes. -/
theorem zipFile_ok {s : ListSort Node Node.weight} {fmt : Codec CompressInfo} {files files' : Files}
    {srcFile desFile : String} {self : Compression}
    (h : zipFile s fmt files srcFile desFile = .ok (self, files')) :
    ∃ content bytes bits, files srcFile = some content ∧ zip s content = .ok (self, bytes, bits) ∧
      files' = writeAllBytes files desFile (fmt.write ⟨self.huffmanCodes, bits⟩ ++ bytes) := by
  rw [zipFile, readAllBytes] at h
  cases hsrc : files srcFile with
  | none => rw [hsrc] at h; cases h
  | some content =>
      rw [hsrc] at h
      change (zip s content >>= _) = _ at h
      cases hz : zip s content with
      | error e => rw [hz] at h; cases h
      | ok r =>
          rcases r with ⟨self', bytes, bits⟩
          rw [hz] at h
          change Except.ok (self', writeAllBytes files desFile
            (fmt.write ⟨self'.huffmanCodes, bits⟩ ++ bytes)) = _ at h
          rw [Except.ok.injEq, Prod.mk.injEq] at h
          rcases h with ⟨rfl, rfl⟩
          exact ⟨content, bytes, bits, rfl, hz, rfl⟩

/-- A successful `unZipFile` changes only its destination. -/
theorem unZipFile_ok {fmt : Codec CompressInfo} {self : Compression} {files files' : Files}
    {srcFile desFile : String} (h : unZipFile fmt self files srcFile desFile = .ok files') :
    ∃ bytes, files' = writeAllBytes files desFile bytes := by
  rw [unZipFile] at h
  cases hr : readAllBytes files srcFile with
  | error e => rw [hr] at h; cases h
  | ok stream =>
      rw [hr] at h
      change (match fmt.read stream with
        | none => _
        | some (compressInfo, buffer) => _) = _ at h
      cases hf : fmt.read stream with
      | none => rw [hf] at h; cases h
      | some r =>
          rw [hf] at h
          change (unZip self r.2 r.1.compressionBitLength >>= _) = _ at h
          cases hu : unZip self r.2 r.1.compressionBitLength with
          | error e => rw [hu] at h; cases h
          | ok bytes =>
              rw [hu] at h
              exact ⟨bytes, (Except.ok.inj h).symm⟩

theorem step_consistent (s : ListSort Node Node.weight) (fmt : Codec CompressInfo) (σ : State)
    (c : Call) (h : Consistent s fmt σ) : Consistent s fmt (step s fmt σ c) := by
  cases c with
  | zipFile o srcFile desFile =>
      rw [step]
      cases hz : zipFile s fmt σ.files srcFile desFile with
      | error e => exact h
      | ok r =>
          rcases r with ⟨self, files⟩
          -- The object keeps the tree of this call, and the archive holds its codes.
          rcases zipFile_ok hz with ⟨content, bytes, bits, hsrc, hzip, rfl⟩
          constructor
          · intro i
            simp only []
            by_cases hi : i = o
            · rw [if_pos hi]; exact (zip_settled hzip).2
            · rw [if_neg hi]; exact h.settled i
          · intro p content' hp
            simp only [writeAllBytes] at hp ⊢
            by_cases hd : p = desFile
            -- The archive just written.
            · rw [if_pos hd, hsrc, Option.some.injEq] at hp
              rw [if_pos hd]
              exact ⟨self, bytes, bits, hp ▸ hzip, rfl⟩
            · rw [if_neg hd] at hp ⊢
              exact h.archive p content' hp
  | unZipFile o srcFile desFile =>
      rw [step]
      cases hu : unZipFile fmt (σ.objects o) σ.files srcFile desFile with
      | error e => exact h
      | ok files =>
          -- A restored file is no archive, so nothing is to be shown of it.
          rcases unZipFile_ok hu with ⟨bytes, rfl⟩
          refine ⟨h.settled, fun p content hp => ?_⟩
          simp only [writeAllBytes] at hp ⊢
          by_cases hd : p = desFile
          · rw [if_pos hd] at hp
            cases hp
          · rw [if_neg hd] at hp ⊢
            exact h.archive p content hp

/-- On every run, archives are what `zip` made of their files. -/
theorem reachable_consistent {s : ListSort Node Node.weight} {fmt : Codec CompressInfo}
    {σ : State} (h : (archives s fmt).Reachable σ) : Consistent s fmt σ := by
  refine System.Reachable.invariant (Consistent s fmt) ?_ ?_ h
  · rintro σ ⟨hobj, horigin⟩
    refine ⟨fun o => Or.inl ?_, fun p content hp => ?_⟩
    · rw [hobj o]; rfl
    · rw [horigin p] at hp
      cases hp
  · intro σ c τ hσ hst
    rw [← Option.some.inj hst]
    exact step_consistent s fmt σ c hσ

/-! ### When an archive is restored -/

theorem flatMap_code_eq {t : CodeTree UInt8} (f : UInt8 → List Char)
    (hf : ∀ x c, (x, c) ∈ t.codes → f x = c.map bitChar) {l : List UInt8} {bits : List Bool}
    (h : t.Spells l bits) : l.flatMap f = bits.map bitChar := by
  induction h with
  | nil => rfl
  | cons x c l bits hc _ ih => rw [List.flatMap_cons, ih, hf x c hc, List.map_append]

theorem bitChar_injective : Function.Injective bitChar := by
  intro a b h
  rw [← bitChar_beq a, h, bitChar_beq]

/-- `unZip` returns the content exactly when the object's tree spells the
    bit string that way. An object without a tree returns nothing. -/
theorem unZip_settled_iff {self : Compression} (hself : self.Settled) {bytes : List UInt8}
    {bitLength : Nat} {bits : List Bool} (hu : unpack bytes bitLength = bits.map bitChar)
    (hne : bits ≠ []) (content : List UInt8) :
    unZip self bytes bitLength = .ok content ↔
      SpellsAs self.huffmanTree content (bits.map bitChar) := by
  rcases hself with hnull | hbr
  · refine iff_of_false ?_ ?_
    · cases bits with
      | nil => exact absurd rfl hne
      | cons b bits =>
          rw [unZip, hu, hnull]
          intro hok
          cases hok
    · rintro ⟨c, r, hsp, hbits, hend⟩
      rw [hnull] at hsp hend
      have hc : c = [] := by
        cases hsp with
        | nil => rfl
        | cons _ _ _ _ hc _ => exact absurd hc List.not_mem_nil
      rw [hc, List.nil_append] at hbits
      rcases hend with rfl | hend
      · exact hne (List.map_eq_nil_iff.mp hbits)
      · exact CodeTree.not_isBranch_descend r .empty (fun h => h) (fun _ => rfl) hend
  · rw [unZip_eq_ok_iff hbr hu]
    simp only [SpellsAs, List.map_inj_right (fun _ _ => @bitChar_injective _ _)]

/-- In every state of every run, and for every archive made from a file that
    survives its own round trip: unzipping the archive restores the file
    exactly when the object's current tree spells the archive's bit string
    as that file. -/
theorem unZipFile_restores_iff (s : ListSort Node Node.weight) (fmt : Codec CompressInfo)
    (σ : State) (h : (archives s fmt).Reachable σ) (o : Nat) (archive desFile : String)
    (content : List UInt8) (horigin : σ.origin archive = some content)
    (hround : RoundTrips s content) :
    Restores fmt σ o archive desFile content ↔
      SpellsAs (σ.objects o).huffmanTree content (bitString s content) := by
  have hcon := reachable_consistent h
  rcases hcon.archive archive content horigin with ⟨self, bytes, k, hz, hfile⟩
  have hcontent : content ≠ [] := (zip_settled hz).1
  rcases zip_eq s content hcontent with ⟨n, d, bits, hn, hd, hbr, hnd, hent, hsp, hzip⟩
  rw [hz, Except.ok.injEq, Prod.mk.injEq, Prod.mk.injEq] at hzip
  rcases hzip with ⟨rfl, rfl, rfl⟩
  have hne : bits ≠ [] := by
    cases content with
    | nil => exact absurd rfl hcontent
    | cons b bs => exact spells_ne_nil hbr hsp
  have hu : unpack (copyTo bits.reverse) bits.length = bits.map bitChar :=
    unpack_pack bits hne ((roundTrips_iff_bits hbr hnd hsp hne hz).mp hround)
  have hbits : bitString s content = bits.map bitChar :=
    flatMap_code_eq _ (fun x c hc => code_eq hn hd hent hc) hsp
  -- The call reads the header back and unzips the bytes behind it.
  have hcall : unZipFile fmt (σ.objects o) σ.files archive desFile
      = (unZip (σ.objects o) (copyTo bits.reverse) bits.length).map
          (writeAllBytes σ.files desFile) := by
    rw [unZipFile, readAllBytes, hfile]
    change (match fmt.read (fmt.write ⟨some d, bits.length⟩ ++ copyTo bits.reverse) with
      | none => _
      | some (compressInfo, buffer) => _) = _
    rw [fmt.read_write]
    change (unZip (σ.objects o) (copyTo bits.reverse) bits.length >>= _) = _
    cases unZip (σ.objects o) (copyTo bits.reverse) bits.length with
    | error e => rfl
    | ok l => rfl
  rw [hbits, ← unZip_settled_iff (hcon.settled o) hu hne content, Restores, hcall]
  cases unZip (σ.objects o) (copyTo bits.reverse) bits.length with
  | error e =>
      refine iff_of_false ?_ nofun
      rintro ⟨files, hf, -⟩
      cases hf
  | ok l =>
      rw [Except.ok.injEq]
      constructor
      · rintro ⟨files, hf, hdes⟩
        rw [← Except.ok.inj hf, writeAllBytes, if_pos rfl, Option.some.injEq] at hdes
        exact hdes
      · rintro rfl
        exact ⟨_, rfl, by rw [writeAllBytes, if_pos rfl]⟩

/-! ### Runs that restore and runs that do not -/

/-- A code table as a list of its entries, none for a missing table. -/
def tableCodec : Codec (Option (Dictionary UInt8 (List Char))) :=
  (Codec.list (Codec.list (Codec.pair Codec.byte (Codec.list
    (Codec.count.convert Char.toNat (fun n => some (Char.ofNat n))
      (fun c => congrArg some (Char.ofNat_toNat c))))))).convert
    (fun d => (d.map Dictionary.entries).toList)
    (fun l =>
      match l with
      | [] => some none
      | entries :: _ =>
          if h : (entries.map Prod.fst).Nodup then some (some ⟨entries, h⟩) else none)
    (by
      intro d
      cases d with
      | none => rfl
      | some d => exact dif_pos d.nodup)

/-- Some codec of the header. -/
def infoCodec : Codec CompressInfo :=
  (Codec.pair tableCodec Codec.count).convert
    (fun i => (i.huffmanCodes, i.compressionBitLength)) (fun p => some ⟨p.1, p.2⟩) (fun _ => rfl)

/-- Fresh objects over the given files. -/
def start (files : Files) : State := ⟨fun _ => Compression.new, files, fun _ => none⟩

/-- A single file of two bytes. -/
def twoBytes : Files := fun p => if p = "a" then some [97, 98] else none

/-- The state after object zero has zipped that file. -/
def zipped : State :=
  step (insertionSort Node Node.weight) infoCodec (start twoBytes) (.zipFile 0 "a" "a.huf")

theorem zipped_reachable :
    (archives (insertionSort Node Node.weight) infoCodec).Reachable zipped := by
  refine System.Reachable.step (start twoBytes) (Call.zipFile 0 "a" "a.huf") zipped ?_ rfl
  exact System.Reachable.init (start twoBytes) ⟨fun _ => rfl, fun _ => rfl⟩

theorem zipped_origin : zipped.origin "a.huf" = some [97, 98] := by rfl

theorem roundTrips_two : RoundTrips (insertionSort Node Node.weight) [97, 98] :=
  ⟨_, _, _, rfl, rfl⟩

/-- The object that zipped the file restores it. -/
theorem unZipFile_restores_same_object :
    Restores infoCodec zipped 0 "a.huf" "b" [97, 98] := by
  refine (unZipFile_restores_iff (insertionSort Node Node.weight) infoCodec zipped zipped_reachable
    0 "a.huf" "b" [97, 98] zipped_origin roundTrips_two).mpr ?_
  refine ⟨[true, false], [], ?_, by rfl, Or.inl rfl⟩
  exact .cons 97 [true] [98] [false] (by decide) (.cons 98 [false] [] [] (by decide) .nil)

/-- A fresh object does not restore it: it has no tree to walk. -/
theorem fresh_object_fails :
    (archives (insertionSort Node Node.weight) infoCodec).Reachable zipped ∧
      zipped.origin "a.huf" = some [97, 98] ∧
      RoundTrips (insertionSort Node Node.weight) [97, 98] ∧
      unZipFile infoCodec (zipped.objects 1) zipped.files "a.huf" "b" = .error .nullReference ∧
      ¬ Restores infoCodec zipped 1 "a.huf" "b" [97, 98] := by
  have hcall : unZipFile infoCodec (zipped.objects 1) zipped.files "a.huf" "b"
      = .error .nullReference := by rfl
  refine ⟨zipped_reachable, zipped_origin, roundTrips_two, hcall, ?_⟩
  rintro ⟨files, hf, -⟩
  rw [hcall] at hf
  cases hf

end Huffman

end BlogSample
