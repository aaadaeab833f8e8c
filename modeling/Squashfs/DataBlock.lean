import Squashfs.Metablock

/-!
# Data blocks

Model of `decode_data_block` (`src/fs.rs:773-805`) and of the size word's accessors
(`src/table.rs:86-93`). A file's data blocks and the fragment blocks that pack file tails share one
size word: the low 24 bits are the size on disk, bit 24 says that the payload is stored raw.
`decodeDataBlock` reads one block, and `uncached` answers every `Req` from the device alone, which
is what the reader does with its caches switched off.
-/

namespace Squashfs

open Foundation

def DATA_UNCOMPRESSED_BIT : UInt32 := (1 : UInt32) <<< 24

def DATA_SIZE_MASK : UInt32 := ((1 : UInt32) <<< 24) - 1

/-- The on-disk length of a data block, from its size word. -/
def dataOnDiskSize (raw : UInt32) : UInt32 := raw &&& DATA_SIZE_MASK

/-- Whether a data block's payload is compressed. -/
def dataIsCompressed (raw : UInt32) : Bool := raw &&& DATA_UNCOMPRESSED_BIT == 0

/-- `Filesystem::decode_data_block`. -/
def decodeDataBlock (codecs : Codecs) (dev : Device) (sb : Superblock) (comp : Compressor)
    (absOff : Nat) (sizeWord : UInt32) (maxOut : Nat) : Res Bytes := do
  let onDisk := (dataOnDiskSize sizeWord).toNat
  if sb.blockSize.toNat < onDisk then
    fails (.badInode "data block's on-disk size exceeds the archive's block size")
  else
    let raw ← dev.read absOff onDisk
    if dataIsCompressed sizeWord then decompress codecs comp raw maxOut
    else if maxOut < raw.length then
      fails (.badInode "uncompressed data block exceeds block size")
    else return raw

/-- Every request answered from the device, with no cache in front. -/
def uncached (codecs : Codecs) (dev : Device) (sb : Superblock) (comp : Compressor) :
    ∀ q, Reply q
  | .block abs => readBlockUncached codecs dev sb abs
  | .data abs sizeWord maxOut => decodeDataBlock codecs dev sb comp abs sizeWord maxOut

theorem dataOnDiskSize_lt (raw : UInt32) : (dataOnDiskSize raw).toNat < 2 ^ 24 := by
  unfold dataOnDiskSize
  rw [UInt32.toNat_and]
  exact Nat.lt_of_le_of_lt Nat.and_le_right (by decide)

/-- A data block's decoding returns, within what a vector holds. -/
theorem safe_decodeDataBlock (codecs : Codecs) (dev : Device) (sb : Superblock)
    (comp : Compressor) (absOff : Nat) (sizeWord : UInt32) {maxOut : Nat}
    (hmax : maxOut < isizeMax) :
    Safe (·.length ≤ isizeMax)
      (decodeDataBlock codecs dev sb comp absOff sizeWord maxOut) := by
  have hlt := dataOnDiskSize_lt sizeWord
  unfold decodeDataBlock
  refine safe_ite (fun _ => trivial) fun _ => ?_
  refine safe_bind ((dev.returns_read _ _).safe fun _ h => dev.length_of_read h) fun raw hraw => ?_
  have hsmall : raw.length ≤ isizeMax := by unfold isizeMax; omega
  refine safe_ite (fun _ => ?_) fun _ => safe_ite (fun _ => trivial) fun _ => hsmall
  exact (safe_decompress codecs comp hsmall hmax).mono fun out hout => hout.1

/-- **The device's own answers return.** -/
theorem tame_uncached (codecs : Codecs) (dev : Device) (sb : Superblock) (comp : Compressor) :
    Tame (uncached codecs dev sb comp) where
  block abs := (safe_readBlockUncached codecs dev sb abs).mono fun _ h => h.1
  data abs sizeWord _ hmax := safe_decodeDataBlock codecs dev sb comp abs sizeWord hmax

end Squashfs
