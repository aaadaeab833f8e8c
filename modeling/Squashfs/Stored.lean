import Squashfs.Image

/-!
# What a writer stored is read back

About `MetaCursor` (`src/metablock.rs:283-410`) and `Inode::read` (`src/inode.rs:203-318`) over what
a writer laid out. `StoredBlock` says that a metadata block lies on the device at an offset, raw or
compressed, and `StoredRun` that blocks lie one after the other. However a writer cut its stream
into such blocks, the reader's stream is the bytes it wrote (`streamAt_of_stored`).

**`Inode.read_stored`**: an inode record written anywhere in such a stream is read back through the
reference that names its block and offset.
-/

namespace Squashfs

open Foundation

/-- `block` is stored at `abs`, raw or in a form the image's codec decompresses to it, and the
next block begins at `next`. -/
inductive StoredBlock (codecs : Codecs) (dev : Device) (sb : Superblock) (abs : Nat) :
    Bytes → Nat → Prop
  | raw (block : Bytes) (hlen : block.length ≤ METADATA_SIZE) (hpos : 0 < block.length)
      (hheader : dev.read abs 2 =
        .ok (u16Bytes (UInt16.ofNat block.length ||| UNCOMPRESSED_BIT)))
      (hpayload : dev.read (abs + 2) block.length = .ok block) :
      StoredBlock codecs dev sb abs block (abs + 2 + block.length)
  | compressed (block payload : Bytes) (comp : Compressor) (hlen : payload.length ≤ METADATA_SIZE)
      (hpos : 0 < payload.length)
      (hheader : dev.read abs 2 = .ok (u16Bytes (UInt16.ofNat payload.length)))
      (hpayload : dev.read (abs + 2) payload.length = .ok payload)
      (hcomp : sb.compressor = .ok comp)
      (hcodec : decompress codecs comp payload METADATA_SIZE = .ok block) :
      StoredBlock codecs dev sb abs block (abs + 2 + payload.length)

/-- Non-empty blocks of at most 8 KiB stored one after the other. -/
inductive StoredRun (codecs : Codecs) (dev : Device) (sb : Superblock) :
    Nat → List Bytes → Nat → Prop
  | nil (abs : Nat) : StoredRun codecs dev sb abs [] abs
  | cons {abs next fin : Nat} {block : Bytes} {blocks : List Bytes}
      (head : StoredBlock codecs dev sb abs block next) (hne : block ≠ [])
      (hlen : block.length ≤ METADATA_SIZE) (tail : StoredRun codecs dev sb next blocks fin) :
      StoredRun codecs dev sb abs (block :: blocks) fin

section Stored

variable {codecs : Codecs} {dev : Device} {sb : Superblock} {comp : Compressor}

/-- The two header fields of a block of size `n`, with and without the raw bit. -/
theorem header_size {n : Nat} (h : n ≤ METADATA_SIZE) :
    (UInt16.ofNat n &&& SIZE_MASK).toNat = n ∧ UInt16.ofNat n &&& UNCOMPRESSED_BIT = 0 ∧
      ((UInt16.ofNat n ||| UNCOMPRESSED_BIT) &&& SIZE_MASK).toNat = n ∧
      (UInt16.ofNat n ||| UNCOMPRESSED_BIT) &&& UNCOMPRESSED_BIT ≠ 0 := by
  have hlt : n < 2 ^ 15 := Nat.lt_of_le_of_lt h (by decide)
  have hn : (UInt16.ofNat n).toNat = n := by
    rw [UInt16.toNat_ofNat']
    omega
  have hmask : SIZE_MASK.toNat = 2 ^ 15 - 1 := rfl
  have hbit : UNCOMPRESSED_BIT.toNat = 2 ^ 15 := rfl
  refine ⟨?_, ?_, ?_, fun h0 => ?_⟩
  · rw [UInt16.toNat_and, hn, hmask, Nat.and_two_pow_sub_one_eq_mod, Nat.mod_eq_of_lt hlt]
  · rw [← UInt16.toNat_inj, UInt16.toNat_and, hn, hbit]
    refine Nat.eq_of_testBit_eq fun i => ?_
    rw [Nat.testBit_and, Nat.testBit_two_pow, UInt16.toNat_zero, Nat.zero_testBit]
    by_cases hi : 15 = i
    · rw [← hi, Nat.testBit_lt_two_pow hlt, Bool.false_and]
    · rw [decide_eq_false hi, Bool.and_false]
  · rw [UInt16.toNat_and, UInt16.toNat_or, hn, hmask, hbit, Nat.and_two_pow_sub_one_eq_mod,
      Nat.or_mod_two_pow, Nat.mod_self, Nat.or_zero, Nat.mod_eq_of_lt hlt]
  · rw [← UInt16.toNat_inj, UInt16.toNat_and, UInt16.toNat_or, hn, hbit] at h0
    have htop := congrArg (Nat.testBit · 15) h0
    simp only [Nat.testBit_and, Nat.testBit_or, Nat.testBit_two_pow_self, Bool.or_true,
      Bool.and_true] at htop
    exact absurd htop (by decide)

/-- A stored block is the one the reader decodes. -/
theorem StoredBlock.read {abs next : Nat} {block : Bytes}
    (h : StoredBlock codecs dev sb abs block next) :
    readBlockUncached codecs dev sb abs = .ok (block, next) := by
  have hsize := dev.size_lt
  cases h with
  | raw hlen hpos hheader hpayload =>
    obtain ⟨-, -, hmask, hbit⟩ := header_size hlen
    have hend := dev.le_of_read hpayload hpos
    unfold readBlockUncached
    rw [hheader, ok_bind]
    dsimp only
    rw [u16le_u16Bytes, hmask, if_neg (by omega), add64_ok (by omega), ok_bind, hpayload, ok_bind]
    unfold unpackBlock
    rw [if_neg hbit, if_neg (by omega), pure_eq_ok, ok_bind, ok_bind, add64_ok (by omega)]
    rfl
  | compressed payload c hlen hpos hheader hpayload hcomp hcodec =>
    obtain ⟨hmask, hbit, -, -⟩ := header_size hlen
    have hend := dev.le_of_read hpayload hpos
    unfold readBlockUncached
    rw [hheader, ok_bind]
    dsimp only
    rw [u16le_u16Bytes, hmask, if_neg (by omega), add64_ok (by omega), ok_bind, hpayload, ok_bind]
    unfold unpackBlock
    rw [if_pos hbit, hcomp, ok_bind, hcodec, ok_bind, ok_bind, add64_ok (by omega)]
    rfl

/-- Stored blocks are the blocks ahead of a cursor. -/
theorem StoredRun.segments {abs fin : Nat} {blocks : List Bytes}
    (h : StoredRun codecs dev sb abs blocks fin) :
    ∃ segs, Segments (uncached codecs dev sb comp) none abs segs fin ∧
      bytesOf segs = blocks.flatten := by
  induction h with
  | nil abs => exact ⟨[], .nil abs, rfl⟩
  | cons head hne _ _ ih =>
    obtain ⟨segs, hs, hbytes⟩ := ih
    refine ⟨_, .cons (fun _ _ hl => by cases hl) head.read hne hs, ?_⟩
    rw [bytesOf_cons, hbytes, List.flatten_cons]

/-- **However the stream was cut into blocks, the reader's stream is the bytes written.** -/
theorem streamAt_of_stored {abs fin : Nat} {first : Bytes} {blocks : List Bytes}
    (h : StoredRun codecs dev sb abs (first :: blocks) fin) {before w after : Bytes}
    (hstream : (first :: blocks).flatten = before ++ w ++ after)
    (hbefore : before.length ≤ first.length) :
    StreamAt (uncached codecs dev sb comp) abs before.length w := by
  cases h with
  | cons head hne hlen tail =>
    obtain ⟨segs, hs, hbytes⟩ := @StoredRun.segments _ _ _ comp _ _ _ tail
    refine ⟨first, _, segs, fin, head.read, hbefore, hs, after, ?_⟩
    rw [hbytes, ← List.drop_append_of_le_length hbefore, ← List.flatten_cons, hstream,
      List.append_assoc, List.drop_left]

end Stored

/-! ## Inodes -/

/-- A packed reference to byte `inBlock` of the block at `blockOffset` in its table. -/
def MetadataRef.pack (blockOffset : UInt64) (inBlock : UInt16) : UInt64 :=
  (blockOffset <<< 16) ||| inBlock.toUInt64

theorem MetadataRef.fromPacked_pack {blockOffset : UInt64} {inBlock : UInt16}
    (h : blockOffset.toNat < 2 ^ 48) :
    MetadataRef.fromPacked (MetadataRef.pack blockOffset inBlock) = ⟨blockOffset, inBlock⟩ := by
  have hin := inBlock.toNat_lt
  have hshift : (blockOffset <<< 16).toNat = blockOffset.toNat <<< 16 := by
    rw [UInt64.toNat_shiftLeft, Nat.mod_eq_of_lt]
    · rfl
    · rw [show (16 : UInt64).toNat % 64 = 16 from rfl, Nat.shiftLeft_eq]
      omega
  have hpack : (MetadataRef.pack blockOffset inBlock).toNat =
      blockOffset.toNat * 2 ^ 16 + inBlock.toNat := by
    rw [MetadataRef.pack, UInt64.toNat_or, hshift, UInt16.toNat_toUInt64,
      ← Nat.shiftLeft_add_eq_or_of_lt hin, Nat.shiftLeft_eq]
  have hhigh : MetadataRef.pack blockOffset inBlock >>> 16 = blockOffset := by
    rw [← UInt64.toNat_inj, UInt64.toNat_shiftRight, hpack, show (16 : UInt64).toNat % 64 = 16
      from rfl, Nat.shiftRight_eq_div_pow]
    omega
  have hlow : (MetadataRef.pack blockOffset inBlock &&& 0xFFFF).toUInt16 = inBlock := by
    rw [← UInt16.toNat_inj, UInt64.toNat_toUInt16, UInt64.toNat_and, hpack,
      show (0xFFFF : UInt64).toNat = 2 ^ 16 - 1 from rfl, Nat.and_two_pow_sub_one_eq_mod]
    omega
  rw [MetadataRef.fromPacked, hhigh, hlow]

/-- **An inode written into the inode table is read back**: for every record of the fourteen
types, wherever it lies in a stream stored in non-empty blocks, however the stream was cut and
whatever follows the record, the reference that names its block and offset gives exactly the
record's fields. -/
theorem Inode.read_stored {codecs : Codecs} {dev : Device} {sb : Superblock} {comp : Compressor}
    {h : InodeHeader} {r : InodeRecord} (hvalid : r.Valid sb.blockSize.toNat)
    {blockOffset : UInt64} (hoffset : blockOffset.toNat < 2 ^ 48) {inBlock : UInt16}
    {first : Bytes} {blocks : List Bytes} {fin : Nat}
    (hstored : StoredRun codecs dev sb (sb.inodeTableStart.toNat + blockOffset.toNat)
      (first :: blocks) fin)
    {before after : Bytes} (hstream : (first :: blocks).flatten = before ++ r.encode h ++ after)
    (hplace : before.length = inBlock.toNat) (hbefore : before.length ≤ first.length) :
    Asking.exec (uncached codecs dev sb comp) (read sb (MetadataRef.pack blockOffset inBlock)) =
      .ok (r.toInode h) := by
  have hstart : saturatingAdd sb.inodeTableStart.toNat blockOffset.toNat =
      sb.inodeTableStart.toNat + blockOffset.toNat := by
    obtain ⟨block, next, hblock⟩ : ∃ block next, StoredBlock codecs dev sb
        (sb.inodeTableStart.toNat + blockOffset.toNat) block next := by
      cases hstored with
      | cons head hne hlen tail => exact ⟨_, _, head⟩
    have hread := (safe_readBlockUncached codecs dev sb _).of_eq hblock.read
    have hsize := dev.size_lt
    exact saturatingAdd_eq (by omega)
  rw [exec_read (tame_uncached codecs dev sb comp)]
  refine ⟨h, r, hvalid, rfl, ?_⟩
  rw [MetadataRef.fromPacked_pack hoffset]
  unfold MetadataRef.startAbs
  dsimp only
  rw [hstart, ← hplace]
  exact streamAt_of_stored hstored hstream hbefore

/-- The record of a symlink to `abc`. -/
def linkRecord : InodeRecord := .extSymlink 1 [0x61, 0x62, 0x63] 7

def linkHeader : InodeHeader := ⟨0x1FF, 0, 0, 5, 9⟩

/-- Two metadata blocks that cut the symlink's record inside its target. -/
def cutBlocks : List Bytes :=
  [0xEE :: (linkRecord.encode linkHeader).take 26, (linkRecord.encode linkHeader).drop 26 ++ [0xEE]]

/-- A device with those blocks where the sample image has its inode table. -/
def cutDevice : Device :=
  .ofBytes (List.replicate SUPERBLOCK_SIZE 0 ++ (cutBlocks.map storeRaw).flatten) (by decide +kernel)

theorem Inode.read_stored_cut :
    Asking.exec (uncached .none cutDevice PlainImage.sample.superblock .gzip)
      (read PlainImage.sample.superblock (MetadataRef.pack 0 1)) =
        .ok (linkRecord.toInode linkHeader) := by
  have hvalid : linkRecord.Valid PlainImage.sample.superblock.blockSize.toNat :=
    show [0x61, 0x62, (0x63 : UInt8)].length ≤ 65536 by decide
  have hhead : StoredBlock .none cutDevice PlainImage.sample.superblock 96 cutBlocks[0] 125 :=
    .raw _ (by decide +kernel) (by decide +kernel) (by decide +kernel) (by decide +kernel)
  have htail : StoredBlock .none cutDevice PlainImage.sample.superblock 125 cutBlocks[1] 133 :=
    .raw _ (by decide +kernel) (by decide +kernel) (by decide +kernel) (by decide +kernel)
  have hstored : StoredRun .none cutDevice PlainImage.sample.superblock 96 cutBlocks 133 :=
    .cons hhead (by decide +kernel) (by decide +kernel)
      (.cons htail (by decide +kernel) (by decide +kernel) (.nil _))
  have hstream : cutBlocks.flatten = [0xEE] ++ linkRecord.encode linkHeader ++ [0xEE] := by
    decide +kernel
  exact Inode.read_stored hvalid (by decide) hstored hstream rfl (by decide +kernel)

/-! ## Attribute sets -/

namespace Xattr

variable {codecs : Codecs} {dev : Device} {sb : Superblock} {comp : Compressor}

/-- `w` is written at a packed reference into the pair area: it lies in a stream stored in
non-empty blocks, at the block and offset the reference names. -/
def StoredAtRef (codecs : Codecs) (dev : Device) (sb : Superblock) (table : XattrIdTable)
    (packed : UInt64) (w : Bytes) : Prop :=
  ∃ first blocks fin before after,
    StoredRun codecs dev sb ((MetadataRef.fromPacked packed).startAbs table.tableStart)
      (first :: blocks) fin ∧
    (first :: blocks).flatten = before ++ w ++ after ∧
    before.length = (MetadataRef.fromPacked packed).inBlock.toNat ∧ before.length ≤ first.length

theorem StoredAtRef.stream {table : XattrIdTable} {packed : UInt64} {w : Bytes}
    (h : StoredAtRef codecs dev sb table packed w) :
    StreamAtRef (uncached codecs dev sb comp) table packed w := by
  obtain ⟨first, blocks, fin, before, after, hrun, hstream, hplace, hbefore⟩ := h
  unfold StreamAtRef
  rw [← hplace]
  exact streamAt_of_stored hrun hstream hbefore

/-- **A set is read exactly by its grammar**, and any attributes written as sets are, inline or out
of line and however their blocks are cut, are read back. -/
theorem readSet_exact (codecs : Codecs) (dev : Device) (sb : Superblock) (comp : Compressor)
    (table : XattrIdTable) (i : UInt32) (out : List XattrEntry) :
    let f := uncached codecs dev sb comp
    (Asking.exec f (readSet table i) = .ok out ↔ Spelled (StreamAtRef f table) table i out) ∧
      (Spelled (StoredAtRef codecs dev sb table) table i out →
        Asking.exec f (readSet table i) = .ok out) := by
  have hexact := exec_readSet (tame_uncached codecs dev sb comp) table i out
  refine ⟨hexact, fun ⟨id, hid, hcount, hlen, hsum, w, hw, hwords⟩ => ?_⟩
  refine hexact.mpr ⟨id, hid, hcount, hlen, hsum, w, hw.stream, hwords.mono fun w e hpair => ?_⟩
  exact hpair.mono fun r w hr => hr.stream

end Xattr

end Squashfs
