import Squashfs.Inode
import Squashfs.Xattr

/-!
# Images without a codec

A writer for the samples of this development; `src/` has none, since the reader is read-only. It
stores every metadata block raw and keeps each table in one block. It lays out what a `PlainImage`
holds: the superblock first, then inodes, listings, ids and attribute sets.
-/

namespace Squashfs

open Foundation

/-- A metadata block stored raw. -/
def storeRaw (block : Bytes) : Bytes :=
  u16Bytes (UInt16.ofNat block.length ||| UNCOMPRESSED_BIT) ++ block

theorem storeRaw_length (block : Bytes) : (storeRaw block).length = 2 + block.length := by
  rw [storeRaw, List.length_append, u16Bytes_length]

/-- The header of a block stored raw says so, and gives its length. -/
theorem rawHeader {n : Nat} (h : n ≤ METADATA_SIZE) :
    (UInt16.ofNat n ||| UNCOMPRESSED_BIT) &&& UNCOMPRESSED_BIT ≠ 0 ∧
      ((UInt16.ofNat n ||| UNCOMPRESSED_BIT) &&& SIZE_MASK).toNat = n := by
  unfold METADATA_SIZE at h
  have hn : (UInt16.ofNat n).toNat = n := UInt16.toNat_ofNat_of_lt' (Nat.lt_of_le_of_lt h (by decide))
  have hor : (UInt16.ofNat n ||| UNCOMPRESSED_BIT).toNat = 2 ^ 15 + n := by
    rw [UInt16.toNat_or, hn, Nat.or_comm]
    exact (Nat.two_pow_add_eq_or_of_lt (i := 15) (by omega) 1).symm
  constructor
  · intro h0
    have hand : (2 ^ 15 + n) &&& 2 ^ 15 = 0 := by
      rw [← hor]
      exact congrArg UInt16.toNat h0
    have hbit : (2 ^ 15 + n).testBit 15 = true := by
      rw [Nat.testBit_two_pow_add_eq, Nat.testBit_lt_two_pow (by omega)]
      rfl
    have := congrArg (·.testBit 15) hand
    simp only [Nat.testBit_and, hbit, Nat.testBit_two_pow_self] at this
    cases this
  · rw [UInt16.toNat_and, hor]
    show (2 ^ 15 + n) &&& (2 ^ 15 - 1) = n
    rw [Nat.and_two_pow_sub_one_eq_mod]
    omega

/-- **A metadata block stored raw is read back**, wherever it is. -/
theorem readBlockUncached_storeRaw {codecs : Codecs} {sb : Superblock}
    {bytes pre block post : Bytes} (h : bytes.length < wordSize)
    (hbytes : bytes = pre ++ (storeRaw block ++ post)) (hpos : 0 < block.length)
    (hle : block.length ≤ METADATA_SIZE) :
    readBlockUncached codecs (Device.ofBytes bytes h) sb pre.length =
      .ok (block, pre.length + 2 + block.length) := by
  subst hbytes
  obtain ⟨hraw, hsize⟩ := rawHeader hle
  have hlen : (pre ++ (storeRaw block ++ post)).length =
      pre.length + (2 + block.length + post.length) := by
    rw [List.length_append, List.length_append, storeRaw_length]
  have hword : ((pre ++ (storeRaw block ++ post)).drop pre.length).take 2 =
      u16Bytes (UInt16.ofNat block.length ||| UNCOMPRESSED_BIT) := by
    rw [List.drop_left, storeRaw, List.append_assoc, List.take_left' (u16Bytes_length _)]
  have hpayload : ((pre ++ (storeRaw block ++ post)).drop (pre.length + 2)).take block.length =
      block := by
    rw [← List.drop_drop, List.drop_left, storeRaw, List.append_assoc,
      List.drop_left' (u16Bytes_length _), List.take_left]
  unfold readBlockUncached
  rw [Device.ofBytes_read (by omega), ok_bind, hword, u16le_u16Bytes]
  dsimp only
  rw [hsize, if_neg (by omega), add64_ok (by omega), ok_bind, Device.ofBytes_read (by omega),
    ok_bind, hpayload, unpackBlock, if_neg hraw, if_neg (by omega)]
  rw [pure_eq_ok, ok_bind, ok_bind, add64_ok (by omega), ok_bind]
  rfl

/-- What an image without a codec holds: one metadata block of inodes, one of listings, one of
ids, and the attribute sets, if there are any, in one block of pairs and one of sets. -/
structure PlainImage where
  rootInodeRef : UInt64
  inodes : Bytes
  listings : Bytes
  ids : List UInt32
  pairs : Bytes
  sets : List XattrId
  deriving Repr

namespace PlainImage

variable (image : PlainImage)

def listingsAt : Nat := SUPERBLOCK_SIZE + (storeRaw image.inodes).length

def idsAt : Nat := image.listingsAt + (storeRaw image.listings).length

def idBlock : Bytes := (image.ids.map u32Bytes).flatten

def idTableAt : Nat := image.idsAt + (storeRaw image.idBlock).length

def pairsAt : Nat := image.idTableAt + 8

def setsAt : Nat := image.pairsAt + (storeRaw image.pairs).length

def setBlock : Bytes :=
  (image.sets.map fun s => u64Bytes s.xattrRef ++ u32Bytes s.count ++ u32Bytes s.size).flatten

def setTableAt : Nat := image.setsAt + (storeRaw image.setBlock).length

/-- Everything after the superblock. -/
def body : Bytes :=
  storeRaw image.inodes ++ storeRaw image.listings ++ storeRaw image.idBlock ++
    u64Bytes (UInt64.ofNat image.idsAt) ++
    if image.sets = [] then []
    else storeRaw image.pairs ++ storeRaw image.setBlock ++
      u64Bytes (UInt64.ofNat image.pairsAt) ++ u32Bytes (UInt32.ofNat image.sets.length) ++
      u32Bytes 0 ++ u64Bytes (UInt64.ofNat image.setsAt)

def superblock : Superblock where
  magic := SQUASHFS_MAGIC
  inodeCount := 1
  modificationTime := 0
  blockSize := 4096
  fragmentEntryCount := 0
  compressionId := 1
  blockLog := 12
  flags := 0
  idCount := UInt16.ofNat image.ids.length
  versionMajor := 4
  versionMinor := 0
  rootInodeRef := image.rootInodeRef
  bytesUsed := UInt64.ofNat (SUPERBLOCK_SIZE + image.body.length)
  idTableStart := UInt64.ofNat image.idTableAt
  xattrIdTableStart := if image.sets = [] then NO_TABLE else UInt64.ofNat image.setTableAt
  inodeTableStart := UInt64.ofNat SUPERBLOCK_SIZE
  directoryTableStart := UInt64.ofNat image.listingsAt
  fragmentTableStart := NO_TABLE
  exportTableStart := NO_TABLE
  log_range := by decide
  size_of_log := rfl

/-- The image's bytes. -/
def bytes : Bytes := image.superblock.encode ++ image.body

/-- An image whose root holds one file, `a`, of three bytes. -/
def sample : PlainImage where
  rootInodeRef := 0
  inodes :=
    InodeRecord.encode ⟨0x1ED, 0, 0, 0, 1⟩ (.basicDir 0 2 24 0 1) ++
      InodeRecord.encode ⟨0x1A4, 0, 0, 0, 2⟩ (.basicFile 96 SQUASHFS_INVALID_FRAG 0 3 [0x1000003])
  listings :=
    u32Bytes 0 ++ u32Bytes 0 ++ u32Bytes 2 ++ u16Bytes 32 ++ u16Bytes 0 ++ u16Bytes 2 ++
      u16Bytes 0 ++ [0x61]
  ids := [0]
  pairs := []
  sets := []

/-- The sample's file. -/
def sampleFile : Inode :=
  InodeRecord.toInode ⟨0x1A4, 0, 0, 0, 2⟩ (.basicFile 96 SQUASHFS_INVALID_FRAG 0 3 [0x1000003])

theorem sample_lt : sample.bytes.length < wordSize := by decide +kernel

end PlainImage

end Squashfs
