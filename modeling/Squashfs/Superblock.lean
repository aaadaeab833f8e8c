import Squashfs.Decompress

/-!
# The superblock

Model of `src/superblock.rs`: `Superblock` and `parse` (36-122), `validate_against_device`
(142-245), the ends of the two tables (258-293), `compressor` (297-299) and `read` (303-307).

`Superblock.parse` decodes the 96 bytes at the start of an image, refusing what is not SquashFS 4.0,
and `validateAgainstDevice` checks the sizes and table starts against the device. A `Superblock`
carries what `parse` established about its block size, so no later definition checks it again.
**`parse_encode`**: `parse` undoes `encode`, which lays the fields out as the format does.
-/

namespace Squashfs

open Foundation

def SQUASHFS_MAGIC : UInt32 := 0x73717368

def SUPERBLOCK_SIZE : Nat := 96

/-- Metadata blocks are at most 8 KiB when decompressed. -/
def METADATA_SIZE : Nat := 8192

def SQUASHFS_MINOR : UInt16 := 0

def MIN_INODE_SIZE : Nat := 16

def MIN_BLOCK_LOG : UInt16 := 12

def MAX_BLOCK_LOG : UInt16 := 20

def SQUASHFS_INVALID_FRAG : UInt32 := 0xFFFFFFFF

/-- The start an absent table carries. -/
def NO_TABLE : UInt64 := 0xFFFFFFFFFFFFFFFF

/-- A parsed superblock. -/
structure Superblock where
  magic : UInt32
  inodeCount : UInt32
  modificationTime : UInt32
  blockSize : UInt32
  fragmentEntryCount : UInt32
  compressionId : UInt16
  blockLog : UInt16
  flags : UInt16
  idCount : UInt16
  versionMajor : UInt16
  versionMinor : UInt16
  rootInodeRef : UInt64
  bytesUsed : UInt64
  idTableStart : UInt64
  xattrIdTableStart : UInt64
  inodeTableStart : UInt64
  directoryTableStart : UInt64
  fragmentTableStart : UInt64
  exportTableStart : UInt64
  log_range : MIN_BLOCK_LOG ≤ blockLog ∧ blockLog ≤ MAX_BLOCK_LOG
  size_of_log : (shl32 1 blockLog.toNat : Res UInt32) = .ok blockSize
  deriving Repr

/-- Parse a superblock from its bytes. -/
def Superblock.parse (b : Bytes) : Res Superblock := do
  if b.length < SUPERBLOCK_SIZE then fails (.badSuperblock "buffer shorter than 96 bytes")
  else
    let magic ← u32At b 0x00
    if magic ≠ SQUASHFS_MAGIC then fails .notSquashfs
    else
      let versionMajor ← u16At b 0x1C
      let versionMinor ← u16At b 0x1E
      if versionMajor ≠ 4 then fails (.badSuperblock "only SquashFS 4.x is supported")
      else if SQUASHFS_MINOR < versionMinor then
        fails (.badSuperblock "unknown SquashFS minor version (only 4.0 is supported)")
      else
        let blockLog ← u16At b 0x16
        if hlog : ¬ (MIN_BLOCK_LOG ≤ blockLog ∧ blockLog ≤ MAX_BLOCK_LOG) then
          fails (.badSuperblock "block_log out of range")
        else
          let blockSize ← u32At b 0x0C
          match hunit : (shl32 1 blockLog.toNat : Res UInt32) with
          | .error f => .error f
          | .ok unit =>
            if hsize : blockSize ≠ unit then
              fails (.badSuperblock "block_size != 1 << block_log")
            else
              return {
                magic
                inodeCount := ← u32At b 0x04
                modificationTime := ← u32At b 0x08
                blockSize
                fragmentEntryCount := ← u32At b 0x10
                compressionId := ← u16At b 0x14
                blockLog
                flags := ← u16At b 0x18
                idCount := ← u16At b 0x1A
                versionMajor
                versionMinor
                rootInodeRef := ← u64At b 0x20
                bytesUsed := ← u64At b 0x28
                idTableStart := ← u64At b 0x30
                xattrIdTableStart := ← u64At b 0x38
                inodeTableStart := ← u64At b 0x40
                directoryTableStart := ← u64At b 0x48
                fragmentTableStart := ← u64At b 0x50
                exportTableStart := ← u64At b 0x58
                log_range := Decidable.not_not.mp hlog
                size_of_log := Decidable.not_not.mp hsize ▸ hunit }

namespace Superblock

/-- A superblock's bytes. -/
def encode (sb : Superblock) : Bytes :=
  [u32Bytes sb.magic, u32Bytes sb.inodeCount, u32Bytes sb.modificationTime, u32Bytes sb.blockSize,
    u32Bytes sb.fragmentEntryCount, u16Bytes sb.compressionId, u16Bytes sb.blockLog,
    u16Bytes sb.flags, u16Bytes sb.idCount, u16Bytes sb.versionMajor, u16Bytes sb.versionMinor,
    u64Bytes sb.rootInodeRef, u64Bytes sb.bytesUsed, u64Bytes sb.idTableStart,
    u64Bytes sb.xattrIdTableStart, u64Bytes sb.inodeTableStart, u64Bytes sb.directoryTableStart,
    u64Bytes sb.fragmentTableStart, u64Bytes sb.exportTableStart].flatten

/-- The nearest of `starts` past `t`, or the largest word when there is none. -/
def nearestPast (t : UInt64) (starts : List UInt64) : Nat :=
  ((starts.filter fun s => s != NO_TABLE && t < s).map UInt64.toNat).min?.getD (wordSize - 1)

/-- Where the inode table ends, as far as the superblock can say. -/
def inodeTableEnd (sb : Superblock) : Nat :=
  nearestPast sb.inodeTableStart [sb.directoryTableStart, sb.fragmentTableStart,
    sb.exportTableStart, sb.idTableStart, sb.xattrIdTableStart, sb.bytesUsed]

/-- Where the directory table ends, as far as the superblock can say. -/
def directoryTableEnd (sb : Superblock) : Nat :=
  nearestPast sb.directoryTableStart [sb.fragmentTableStart, sb.exportTableStart,
    sb.idTableStart, sb.xattrIdTableStart, sb.bytesUsed]

/-- Whether a table may start at `t`. -/
def inImage (sb : Superblock) (t : UInt64) : Bool :=
  decide (SUPERBLOCK_SIZE ≤ t.toNat ∧ t < sb.bytesUsed)

/-- Every table present starts at or after the one before it, from `prev` on. -/
def inOrder (prev : UInt64) : List UInt64 → Bool
  | [] => true
  | t :: ts => if t = NO_TABLE then inOrder prev ts else if t < prev then false else inOrder t ts

/-- Check the superblock's sizes and table starts against the device it was read from. -/
def validateAgainstDevice (sb : Superblock) (deviceSize : Nat) : Res Unit :=
  if deviceSize < sb.bytesUsed.toNat then
    fails (.badSuperblock "bytes_used exceeds the size of the device")
  else if ¬ [sb.inodeTableStart, sb.directoryTableStart, sb.idTableStart].all sb.inImage then
    fails (.badSuperblock "a table starts outside [superblock end, bytes_used)")
  else if ¬ [sb.fragmentTableStart, sb.exportTableStart, sb.xattrIdTableStart].all
      (fun t => t == NO_TABLE || sb.inImage t) then
    fails (.badSuperblock "a table starts outside [superblock end, bytes_used)")
  else if sb.directoryTableStart ≤ sb.inodeTableStart then
    fails (.badSuperblock
      "table starts are out of order (inode table not before directory table)")
  else if ¬ inOrder sb.directoryTableStart
      [sb.fragmentTableStart, sb.exportTableStart, sb.idTableStart, sb.xattrIdTableStart] then
    fails (.badSuperblock "table starts are out of order")
  else if (checkedAdd sb.inodeTableStart.toNat (sb.rootInodeRef >>> 16).toNat).all
      (fun b => sb.directoryTableStart.toNat ≤ b) then
    fails (.badSuperblock "root inode reference points outside the inode table")
  else if saturatingMul ((sb.inodeTableEnd - sb.inodeTableStart.toNat) / 3)
      (METADATA_SIZE / MIN_INODE_SIZE) < sb.inodeCount.toNat then
    fails (.badSuperblock "inode_count exceeds what the inode table has room for")
  else return ()

/-- The archive-wide compressor. -/
def compressor (sb : Superblock) : Res Compressor := Compressor.fromId sb.compressionId

/-- Read and parse the superblock of a device. -/
def read (dev : Device) : Res Superblock := do
  parse (← dev.read 0 SUPERBLOCK_SIZE)

/-! ## What every superblock satisfies -/

theorem blockLog_le (sb : Superblock) : 12 ≤ sb.blockLog.toNat ∧ sb.blockLog.toNat ≤ 20 :=
  ⟨UInt16.le_iff_toNat_le.mp sb.log_range.1, UInt16.le_iff_toNat_le.mp sb.log_range.2⟩

/-- The block size is the power of two its logarithm names. -/
theorem blockSize_eq (sb : Superblock) : sb.blockSize.toNat = 2 ^ sb.blockLog.toNat := by
  obtain ⟨hlow, hhigh⟩ := sb.blockLog_le
  have hunit := sb.size_of_log
  rw [shl32, guarded_ok (by omega)] at hunit
  have hsize : (1 : UInt32) <<< UInt32.ofNat sb.blockLog.toNat = sb.blockSize :=
    Except.ok.inj hunit
  rw [← hsize]
  generalize sb.blockLog.toNat = k at hlow hhigh
  revert k
  decide

theorem blockSize_pos (sb : Superblock) : 0 < sb.blockSize.toNat := by
  rw [sb.blockSize_eq]
  exact Nat.two_pow_pos _

theorem blockSize_le (sb : Superblock) : sb.blockSize.toNat ≤ 2 ^ 20 := by
  rw [sb.blockSize_eq]
  exact Nat.pow_le_pow_right (by decide) sb.blockLog_le.2

/-! ## What is written is read back -/

theorem encode_length (sb : Superblock) : sb.encode.length = 96 := by
  simp [Superblock.encode]

/-- **A superblock written is read back**, whatever follows it. -/
theorem parse_encode {sb : Superblock} (hmagic : sb.magic = SQUASHFS_MAGIC)
    (hmajor : sb.versionMajor = 4) (hminor : sb.versionMinor = SQUASHFS_MINOR) (rest : Bytes) :
    parse (sb.encode ++ rest) = .ok sb := by
  have hlen : SUPERBLOCK_SIZE ≤ (sb.encode ++ rest).length := by
    rw [List.length_append, sb.encode_length, SUPERBLOCK_SIZE]
    omega
  have h16 : ∀ i v, ((sb.encode ++ rest).drop i).take 2 = u16Bytes v → i + 2 ≤ 96 →
      u16At (sb.encode ++ rest) i = (.ok v : Res UInt16) := fun i v hv hi => by
    rw [u16At_ok (by unfold SUPERBLOCK_SIZE at hlen; omega) (by unfold wordSize; omega), hv,
      u16le_u16Bytes]
  have h32 : ∀ i v, ((sb.encode ++ rest).drop i).take 4 = u32Bytes v → i + 4 ≤ 96 →
      u32At (sb.encode ++ rest) i = (.ok v : Res UInt32) := fun i v hv hi => by
    rw [u32At_ok (by unfold SUPERBLOCK_SIZE at hlen; omega) (by unfold wordSize; omega), hv,
      u32le_u32Bytes]
  have h64 : ∀ i v, ((sb.encode ++ rest).drop i).take 8 = u64Bytes v → i + 8 ≤ 96 →
      u64At (sb.encode ++ rest) i = (.ok v : Res UInt64) := fun i v hv hi => by
    rw [u64At_ok (by unfold SUPERBLOCK_SIZE at hlen; omega) (by unfold wordSize; omega), hv,
      u64le_u64Bytes]
  unfold parse
  rw [if_neg (Nat.not_lt.mpr hlen), h32 0x00 _ rfl (by decide), ok_bind,
    if_neg (not_not_intro hmagic), h16 0x1C _ rfl (by decide), ok_bind,
    h16 0x1E _ rfl (by decide), ok_bind, if_neg (not_not_intro hmajor),
    if_neg (by rw [hminor]; decide), h16 0x16 _ rfl (by decide), ok_bind,
    dif_neg (not_not_intro sb.log_range), h32 0x0C _ rfl (by decide), ok_bind]
  split
  · rename_i hunit
    rw [sb.size_of_log] at hunit
    cases hunit
  · rename_i hunit
    rw [sb.size_of_log] at hunit
    cases hunit
    rw [dif_neg (not_not_intro rfl)]
    rw [h32 0x04 _ rfl (by decide), ok_bind, h32 0x08 _ rfl (by decide), ok_bind,
      h32 0x10 _ rfl (by decide), ok_bind, h16 0x14 _ rfl (by decide), ok_bind,
      h16 0x18 _ rfl (by decide), ok_bind, h16 0x1A _ rfl (by decide), ok_bind,
      h64 0x20 _ rfl (by decide), ok_bind, h64 0x28 _ rfl (by decide), ok_bind,
      h64 0x30 _ rfl (by decide), ok_bind, h64 0x38 _ rfl (by decide), ok_bind,
      h64 0x40 _ rfl (by decide), ok_bind, h64 0x48 _ rfl (by decide), ok_bind,
      h64 0x50 _ rfl (by decide), ok_bind, h64 0x58 _ rfl (by decide), ok_bind]
    rfl

/-- A device that begins with a superblock has it read. -/
theorem read_encode {sb : Superblock} (hmagic : sb.magic = SQUASHFS_MAGIC)
    (hmajor : sb.versionMajor = 4) (hminor : sb.versionMinor = SQUASHFS_MINOR)
    {bytes rest : Bytes} (h : bytes.length < wordSize) (hbytes : bytes = sb.encode ++ rest) :
    read (Device.ofBytes bytes h) = .ok sb := by
  subst hbytes
  have hread : (Device.ofBytes _ h).read 0 SUPERBLOCK_SIZE = .ok (sb.encode ++ []) := by
    rw [Device.ofBytes_read (by rw [List.length_append, encode_length, SUPERBLOCK_SIZE]; omega),
      List.drop_zero, SUPERBLOCK_SIZE, List.take_left' sb.encode_length, List.append_nil]
  unfold read
  rw [hread, ok_bind]
  exact parse_encode hmagic hmajor hminor []

/-! ## The superblock is read safely -/

theorem returns_parse (b : Bytes) : Returns (parse b) := by
  unfold parse
  refine returns_ite (fun _ => trivial) fun hlen => ?_
  have hlen : 96 ≤ b.length := Nat.le_of_not_lt hlen
  have h16 : ∀ i, i + 2 ≤ 96 → Returns (u16At b i : Res UInt16) := fun i hi => by
    rw [u16At_ok (by omega) (by unfold wordSize; omega)]; trivial
  have h32 : ∀ i, i + 4 ≤ 96 → Returns (u32At b i : Res UInt32) := fun i hi => by
    rw [u32At_ok (by omega) (by unfold wordSize; omega)]; trivial
  have h64 : ∀ i, i + 8 ≤ 96 → Returns (u64At b i : Res UInt64) := fun i hi => by
    rw [u64At_ok (by omega) (by unfold wordSize; omega)]; trivial
  refine returns_bind (h32 _ (by decide)) fun magic _ => returns_ite (fun _ => trivial) fun _ => ?_
  refine returns_bind (h16 _ (by decide)) fun major _ => ?_
  refine returns_bind (h16 _ (by decide)) fun minor _ => returns_ite (fun _ => trivial) fun _ => ?_
  refine returns_ite (fun _ => trivial) fun _ => ?_
  refine returns_bind (h16 _ (by decide)) fun blockLog _ => ?_
  split
  · trivial
  rename_i hlog
  refine returns_bind (h32 _ (by decide)) fun blockSize _ => ?_
  split
  · rename_i f hunit
    have hlog := (Decidable.not_not.mp hlog).2
    have hle : blockLog.toNat ≤ 20 := UInt16.le_iff_toNat_le.mp hlog
    rw [shl32, guarded_ok (by omega)] at hunit
    cases hunit
  split
  · trivial
  repeat' first
    | refine returns_bind (h64 _ (by decide)) fun _ _ => ?_
    | refine returns_bind (h32 _ (by decide)) fun _ _ => ?_
    | refine returns_bind (h16 _ (by decide)) fun _ _ => ?_
  trivial

theorem returns_read (dev : Device) : Returns (read dev) :=
  returns_bind (dev.returns_read _ _) fun b _ => returns_parse b

theorem returns_validateAgainstDevice (sb : Superblock) (deviceSize : Nat) :
    Returns (sb.validateAgainstDevice deviceSize) := by
  unfold validateAgainstDevice
  repeat' split
  all_goals trivial

end Superblock

end Squashfs
