import Squashfs.DataBlock
import Squashfs.Stream

/-!
# Inodes

Model of `src/inode.rs`: `FileType` (39-94), `Inode` and what it answers (97-198), and `Inode::read`
(203-318) with its helpers (323-353).

`Inode.read` parses the inode at a metadata reference: a common header, then the fields of one of
fourteen types. `InodeRecord` is the format's own account of those fields and `InodeRecord.encode`
lays a record out as the format does.

**`parses_readBody`**: the parser accepts exactly the records of the format and gives each one's own
fields. It returns on every input (`keeps_readBody`).

Out of scope: `mode_bits` (82-93), which the reader does not call. The halves of a device number
(169-176) are `RecursiveListing`'s.
-/

namespace Squashfs

open Foundation

/-! ## Types -/

def TYPE_BASIC_DIR : UInt16 := 1
def TYPE_BASIC_FILE : UInt16 := 2
def TYPE_BASIC_SYMLINK : UInt16 := 3
def TYPE_BASIC_BLKDEV : UInt16 := 4
def TYPE_BASIC_CHRDEV : UInt16 := 5
def TYPE_BASIC_FIFO : UInt16 := 6
def TYPE_BASIC_SOCKET : UInt16 := 7
def TYPE_EXT_DIR : UInt16 := 8
def TYPE_EXT_FILE : UInt16 := 9
def TYPE_EXT_SYMLINK : UInt16 := 10
def TYPE_EXT_BLKDEV : UInt16 := 11
def TYPE_EXT_CHRDEV : UInt16 := 12
def TYPE_EXT_FIFO : UInt16 := 13
def TYPE_EXT_SOCKET : UInt16 := 14

def MAX_BLOCKS : Nat := 2 ^ 24

def MAX_SYMLINK : UInt32 := 65536

/-- The `xattr` field of an inode without attributes. -/
def SQUASHFS_INVALID_XATTR : UInt32 := 0xFFFFFFFF

inductive FileType where
  | dir
  | regFile
  | symlink
  | charDev
  | blockDev
  | fifo
  | socket
  | unknown
  deriving Repr, DecidableEq

/-- The kind of an inode type id. -/
def FileType.fromTypeId (t : UInt16) : FileType :=
  if t = TYPE_BASIC_DIR ∨ t = TYPE_EXT_DIR then .dir
  else if t = TYPE_BASIC_FILE ∨ t = TYPE_EXT_FILE then .regFile
  else if t = TYPE_BASIC_SYMLINK ∨ t = TYPE_EXT_SYMLINK then .symlink
  else if t = TYPE_BASIC_CHRDEV ∨ t = TYPE_EXT_CHRDEV then .charDev
  else if t = TYPE_BASIC_BLKDEV ∨ t = TYPE_EXT_BLKDEV then .blockDev
  else if t = TYPE_BASIC_FIFO ∨ t = TYPE_EXT_FIFO then .fifo
  else if t = TYPE_BASIC_SOCKET ∨ t = TYPE_EXT_SOCKET then .socket
  else .unknown

/-- An inode, of any type. -/
structure Inode where
  inodeType : UInt16
  permissions : UInt16
  uidIdx : UInt16
  gidIdx : UInt16
  mtime : UInt32
  inodeNumber : UInt32
  nlink : UInt32
  fileSize : UInt64
  dirStartBlock : UInt32
  dirBlockOffset : UInt16
  blocksStart : UInt64
  fragmentIndex : UInt32
  fragmentOffset : UInt32
  blockSizes : List UInt32
  symlinkTarget : Bytes
  rdev : UInt32
  xattrIndex : UInt32
  deriving Repr, DecidableEq

namespace Inode

def fileType (i : Inode) : FileType := .fromTypeId i.inodeType

def isDir (i : Inode) : Bool := i.fileType == .dir

def isRegularFile (i : Inode) : Bool := i.fileType == .regFile

def isSymlink (i : Inode) : Bool := i.fileType == .symlink

def hasXattrs (i : Inode) : Bool := i.xattrIndex != SQUASHFS_INVALID_XATTR

def hasFragment (i : Inode) : Bool := i.isRegularFile && i.fragmentIndex != SQUASHFS_INVALID_FRAG

/-- The length of a directory's listing, which the inode stores three too large. -/
def dirListingLen (i : Inode) : Nat := i.fileSize.toNat - 3

end Inode

/-! ## The parser -/

/-- The number of full data blocks: the tail is in the fragment when there is one. -/
def blockCount (fileSize blockSize : Nat) (fragmentIndex : UInt32) : Res Nat := do
  let n ← (if fragmentIndex = SQUASHFS_INVALID_FRAG then divCeil fileSize blockSize
    else div64 fileSize blockSize)
  if MAX_BLOCKS < n then fails (.badInode "file block count exceeds sanity bound")
  else return n

def readBlockSizes (n : Nat) : CurM (List UInt32) := collect MetaCursor.readU32 n

def readSymlink (size : UInt32) : CurM Bytes :=
  if MAX_SYMLINK < size then throw (.err (.badInode "symlink target exceeds sanity bound"))
  else MetaCursor.readExact size.toNat

namespace Inode

open MetaCursor

def readBasicDir (i : Inode) : CurM Inode := do
  let dirStartBlock ← readU32
  let nlink ← readU32
  let fileSize ← readU16
  let dirBlockOffset ← readU16
  let _parent ← readU32
  return { i with dirStartBlock, nlink, fileSize := fileSize.toUInt64, dirBlockOffset }

def readExtDir (i : Inode) : CurM Inode := do
  let nlink ← readU32
  let fileSize ← readU32
  let dirStartBlock ← readU32
  let _parent ← readU32
  let _indexCount ← readU16
  let dirBlockOffset ← readU16
  let xattrIndex ← readU32
  return { i with nlink, fileSize := fileSize.toUInt64, dirStartBlock, dirBlockOffset, xattrIndex }

def readBasicFile (blockSize : Nat) (i : Inode) : CurM Inode := do
  let blocksStart ← readU32
  let fragmentIndex ← readU32
  let fragmentOffset ← readU32
  let fileSize ← readU32
  let n ← blockCount fileSize.toNat blockSize fragmentIndex
  let blockSizes ← readBlockSizes n
  return { i with
    blocksStart := blocksStart.toUInt64, fragmentIndex, fragmentOffset,
    fileSize := fileSize.toUInt64, blockSizes }

def readExtFile (blockSize : Nat) (i : Inode) : CurM Inode := do
  let blocksStart ← readU64
  let fileSize ← readU64
  let _sparse ← readU64
  let nlink ← readU32
  let fragmentIndex ← readU32
  let fragmentOffset ← readU32
  let xattrIndex ← readU32
  let n ← blockCount fileSize.toNat blockSize fragmentIndex
  let blockSizes ← readBlockSizes n
  return { i with
    blocksStart, fileSize, nlink, fragmentIndex, fragmentOffset, xattrIndex, blockSizes }

def readBasicSymlink (i : Inode) : CurM Inode := do
  let nlink ← readU32
  let targetSize ← readU32
  let symlinkTarget ← readSymlink targetSize
  return { i with nlink, symlinkTarget, fileSize := targetSize.toUInt64 }

def readExtSymlink (i : Inode) : CurM Inode := do
  let nlink ← readU32
  let targetSize ← readU32
  let symlinkTarget ← readSymlink targetSize
  let xattrIndex ← readU32
  return { i with nlink, symlinkTarget, fileSize := targetSize.toUInt64, xattrIndex }

def readBasicDev (i : Inode) : CurM Inode := do
  let nlink ← readU32
  let rdev ← readU32
  return { i with nlink, rdev }

def readExtDev (i : Inode) : CurM Inode := do
  let nlink ← readU32
  let rdev ← readU32
  let xattrIndex ← readU32
  return { i with nlink, rdev, xattrIndex }

def readBasicIpc (i : Inode) : CurM Inode := do
  let nlink ← readU32
  return { i with nlink }

def readExtIpc (i : Inode) : CurM Inode := do
  let nlink ← readU32
  let xattrIndex ← readU32
  return { i with nlink, xattrIndex }

/-- The fields after the header, by type. -/
def readFields (blockSize : Nat) (i : Inode) : CurM Inode :=
  if i.inodeType = TYPE_BASIC_DIR then readBasicDir i
  else if i.inodeType = TYPE_EXT_DIR then readExtDir i
  else if i.inodeType = TYPE_BASIC_FILE then readBasicFile blockSize i
  else if i.inodeType = TYPE_EXT_FILE then readExtFile blockSize i
  else if i.inodeType = TYPE_BASIC_SYMLINK then readBasicSymlink i
  else if i.inodeType = TYPE_EXT_SYMLINK then readExtSymlink i
  else if i.inodeType = TYPE_BASIC_BLKDEV ∨ i.inodeType = TYPE_BASIC_CHRDEV then readBasicDev i
  else if i.inodeType = TYPE_EXT_BLKDEV ∨ i.inodeType = TYPE_EXT_CHRDEV then readExtDev i
  else if i.inodeType = TYPE_BASIC_FIFO ∨ i.inodeType = TYPE_BASIC_SOCKET then readBasicIpc i
  else if i.inodeType = TYPE_EXT_FIFO ∨ i.inodeType = TYPE_EXT_SOCKET then readExtIpc i
  else if i.inodeType = 0 then throw (.err (.badInode "inode type 0"))
  else throw (.err (.badInode "unknown inode type"))

/-- The inode a header alone gives. -/
def ofHeader (inodeType permissions uidIdx gidIdx : UInt16) (mtime inodeNumber : UInt32) : Inode where
  inodeType
  permissions
  uidIdx
  gidIdx
  mtime
  inodeNumber
  nlink := 1
  fileSize := 0
  dirStartBlock := 0
  dirBlockOffset := 0
  blocksStart := 0
  fragmentIndex := SQUASHFS_INVALID_FRAG
  fragmentOffset := 0
  blockSizes := []
  symlinkTarget := []
  rdev := 0
  xattrIndex := SQUASHFS_INVALID_XATTR

/-- An inode from the cursor's position on. -/
def readBody (blockSize : Nat) : CurM Inode := do
  let inodeType ← readU16
  let permissions ← readU16
  let uidIdx ← readU16
  let gidIdx ← readU16
  let mtime ← readU32
  let inodeNumber ← readU32
  readFields blockSize (ofHeader inodeType permissions uidIdx gidIdx mtime inodeNumber)

/-- The inode at a metadata reference. -/
def read (sb : Superblock) (inodeRef : UInt64) : Prog Inode :=
  let r := MetadataRef.fromPacked inodeRef
  parseAt (r.startAbs sb.inodeTableStart) r.inBlock (readBody sb.blockSize.toNat)

end Inode

/-! ## The format -/

/-- The header's fields after the type. -/
structure InodeHeader where
  permissions : UInt16
  uidIdx : UInt16
  gidIdx : UInt16
  mtime : UInt32
  inodeNumber : UInt32

/-- The fields of an inode, by type. -/
inductive InodeRecord where
  | basicDir (startBlock nlink : UInt32) (fileSize blockOffset : UInt16) (parent : UInt32)
  | extDir (nlink fileSize startBlock parent : UInt32) (indexCount blockOffset : UInt16)
      (xattr : UInt32)
  | basicFile (blocksStart fragment fragmentOffset fileSize : UInt32) (sizes : List UInt32)
  | extFile (blocksStart fileSize sparse : UInt64) (nlink fragment fragmentOffset xattr : UInt32)
      (sizes : List UInt32)
  | basicSymlink (nlink : UInt32) (target : Bytes)
  | extSymlink (nlink : UInt32) (target : Bytes) (xattr : UInt32)
  | basicBlkdev (nlink rdev : UInt32)
  | extBlkdev (nlink rdev xattr : UInt32)
  | basicChrdev (nlink rdev : UInt32)
  | extChrdev (nlink rdev xattr : UInt32)
  | basicFifo (nlink : UInt32)
  | extFifo (nlink xattr : UInt32)
  | basicSocket (nlink : UInt32)
  | extSocket (nlink xattr : UInt32)

namespace InodeRecord

/-- The type id of a record. -/
@[simp] def typeId : InodeRecord → UInt16
  | basicDir .. => 1
  | basicFile .. => 2
  | basicSymlink .. => 3
  | basicBlkdev .. => 4
  | basicChrdev .. => 5
  | basicFifo .. => 6
  | basicSocket .. => 7
  | extDir .. => 8
  | extFile .. => 9
  | extSymlink .. => 10
  | extBlkdev .. => 11
  | extChrdev .. => 12
  | extFifo .. => 13
  | extSocket .. => 14

/-- A file's block sizes on disk. -/
def sizesBytes (sizes : List UInt32) : Bytes := (sizes.map u32Bytes).flatten

/-- A record's fields in their order on disk. -/
def fields : InodeRecord → List Bytes
  | basicDir startBlock nlink fileSize blockOffset parent =>
    [u32Bytes startBlock, u32Bytes nlink, u16Bytes fileSize, u16Bytes blockOffset,
      u32Bytes parent]
  | extDir nlink fileSize startBlock parent indexCount blockOffset xattr =>
    [u32Bytes nlink, u32Bytes fileSize, u32Bytes startBlock, u32Bytes parent,
      u16Bytes indexCount, u16Bytes blockOffset, u32Bytes xattr]
  | basicFile blocksStart fragment fragmentOffset fileSize sizes =>
    [u32Bytes blocksStart, u32Bytes fragment, u32Bytes fragmentOffset, u32Bytes fileSize,
      sizesBytes sizes]
  | extFile blocksStart fileSize sparse nlink fragment fragmentOffset xattr sizes =>
    [u64Bytes blocksStart, u64Bytes fileSize, u64Bytes sparse, u32Bytes nlink,
      u32Bytes fragment, u32Bytes fragmentOffset, u32Bytes xattr, sizesBytes sizes]
  | basicSymlink nlink target =>
    [u32Bytes nlink, u32Bytes (UInt32.ofNat target.length), target]
  | extSymlink nlink target xattr =>
    [u32Bytes nlink, u32Bytes (UInt32.ofNat target.length), target, u32Bytes xattr]
  | basicBlkdev nlink rdev => [u32Bytes nlink, u32Bytes rdev]
  | extBlkdev nlink rdev xattr => [u32Bytes nlink, u32Bytes rdev, u32Bytes xattr]
  | basicChrdev nlink rdev => [u32Bytes nlink, u32Bytes rdev]
  | extChrdev nlink rdev xattr => [u32Bytes nlink, u32Bytes rdev, u32Bytes xattr]
  | basicFifo nlink => [u32Bytes nlink]
  | extFifo nlink xattr => [u32Bytes nlink, u32Bytes xattr]
  | basicSocket nlink => [u32Bytes nlink]
  | extSocket nlink xattr => [u32Bytes nlink, u32Bytes xattr]

/-- An inode on disk: the header, then the record's fields. -/
def encode (h : InodeHeader) (r : InodeRecord) : Bytes :=
  ([u16Bytes r.typeId, u16Bytes h.permissions, u16Bytes h.uidIdx, u16Bytes h.gidIdx,
    u32Bytes h.mtime, u32Bytes h.inodeNumber] ++ r.fields).flatten

/-- The number of size words a file's geometry asks for: the tail is left to the fragment when
there is one. -/
def blocksNeeded (fileSize blockSize : Nat) (fragment : UInt32) : Nat :=
  if fragment = SQUASHFS_INVALID_FRAG then (fileSize + blockSize - 1) / blockSize
  else fileSize / blockSize

/-- The block list has the length the geometry asks for, and a symlink's target its bound. -/
def Valid (blockSize : Nat) : InodeRecord → Prop
  | basicFile _ fragment _ fileSize sizes =>
    sizes.length = blocksNeeded fileSize.toNat blockSize fragment ∧ sizes.length ≤ MAX_BLOCKS
  | extFile _ fileSize _ _ fragment _ _ sizes =>
    sizes.length = blocksNeeded fileSize.toNat blockSize fragment ∧ sizes.length ≤ MAX_BLOCKS
  | basicSymlink _ target => target.length ≤ 65536
  | extSymlink _ target _ => target.length ≤ 65536
  | _ => True

/-- The inode a record describes: its own fields, one link for a basic file, and what the type
does not have left absent. -/
def toInode (h : InodeHeader) (r : InodeRecord) : Inode :=
  let base : Inode := {
    inodeType := r.typeId
    permissions := h.permissions
    uidIdx := h.uidIdx
    gidIdx := h.gidIdx
    mtime := h.mtime
    inodeNumber := h.inodeNumber
    nlink := 1
    fileSize := 0
    dirStartBlock := 0
    dirBlockOffset := 0
    blocksStart := 0
    fragmentIndex := SQUASHFS_INVALID_FRAG
    fragmentOffset := 0
    blockSizes := []
    symlinkTarget := []
    rdev := 0
    xattrIndex := SQUASHFS_INVALID_XATTR }
  match r with
  | basicDir startBlock nlink fileSize blockOffset _ =>
    { base with dirStartBlock := startBlock, nlink, fileSize := fileSize.toUInt64,
                dirBlockOffset := blockOffset }
  | extDir nlink fileSize startBlock _ _ blockOffset xattr =>
    { base with dirStartBlock := startBlock, nlink, fileSize := fileSize.toUInt64,
                dirBlockOffset := blockOffset, xattrIndex := xattr }
  | basicFile blocksStart fragment fragmentOffset fileSize sizes =>
    { base with blocksStart := blocksStart.toUInt64, fragmentIndex := fragment, fragmentOffset,
                fileSize := fileSize.toUInt64, blockSizes := sizes }
  | extFile blocksStart fileSize _ nlink fragment fragmentOffset xattr sizes =>
    { base with blocksStart, fragmentIndex := fragment, fragmentOffset, fileSize, nlink,
                xattrIndex := xattr, blockSizes := sizes }
  | basicSymlink nlink target =>
    { base with nlink, symlinkTarget := target, fileSize := UInt64.ofNat target.length }
  | extSymlink nlink target xattr =>
    { base with nlink, symlinkTarget := target, fileSize := UInt64.ofNat target.length,
                xattrIndex := xattr }
  | basicBlkdev nlink rdev => { base with nlink, rdev }
  | extBlkdev nlink rdev xattr => { base with nlink, rdev, xattrIndex := xattr }
  | basicChrdev nlink rdev => { base with nlink, rdev }
  | extChrdev nlink rdev xattr => { base with nlink, rdev, xattrIndex := xattr }
  | basicFifo nlink => { base with nlink }
  | extFifo nlink xattr => { base with nlink, xattrIndex := xattr }
  | basicSocket nlink => { base with nlink }
  | extSocket nlink xattr => { base with nlink, xattrIndex := xattr }

end InodeRecord

/-! ## The parser accepts exactly the format -/

section Exact

variable {f : ∀ q, Reply q}

theorem blockCount_eq_ok {fileSize blockSize n : Nat} {fragment : UInt32} (hb : 0 < blockSize) :
    blockCount fileSize blockSize fragment = .ok n ↔
      n = InodeRecord.blocksNeeded fileSize blockSize fragment ∧ n ≤ MAX_BLOCKS := by
  have hne : blockSize ≠ 0 := Nat.pos_iff_ne_zero.mp hb
  have hcount : (if fragment = SQUASHFS_INVALID_FRAG then divCeil fileSize blockSize
      else div64 fileSize blockSize : Res Nat) =
        .ok (InodeRecord.blocksNeeded fileSize blockSize fragment) := by
    unfold InodeRecord.blocksNeeded
    split
    · exact divCeil_ok hne
    · exact div64_ok hne
  unfold blockCount
  rw [hcount, ok_bind]
  split
  · rename_i hlt
    constructor
    · intro h; cases h
    · rintro ⟨rfl, hle⟩; omega
  · rename_i hle
    constructor
    · intro h; cases h; exact ⟨rfl, by omega⟩
    · rintro ⟨rfl, -⟩; rfl

theorem parses_readBlockSizes (hf : Tame f) (n : Nat) :
    Parses f (MetaCursor.source f) (readBlockSizes n) fun w sizes =>
      sizes.length = n ∧ w = InodeRecord.sizesBytes sizes :=
  (parses_collect (MetaCursor.parses_readU32 hf) n).congr fun _ _ =>
    and_congr_right fun _ => words_code

theorem parses_readSymlink (hf : Tame f) (size : UInt32) :
    Parses f (MetaCursor.source f) (readSymlink size) fun w target =>
      size ≤ MAX_SYMLINK ∧ w = target ∧ target.length = size.toNat := by
  unfold readSymlink
  have hread : Parses f (MetaCursor.source f) (MetaCursor.readExact size.toNat)
      fun w out => w = out ∧ out.length = size.toNat :=
    MetaCursor.parses_readExact hf (Nat.le_of_lt size.toNat_lt)
  refine (parses_ite (fun _ => parses_throw _) fun _ => hread).congr fun w target => ⟨?_, ?_⟩
  · rintro (⟨-, h⟩ | ⟨hle, hw, hlen⟩)
    · exact h.elim
    · exact ⟨UInt32.not_lt.mp hle, hw, hlen⟩
  · rintro ⟨hle, hw, hlen⟩
    exact .inr ⟨UInt32.not_lt.mpr hle, hw, hlen⟩

namespace Inode

open MetaCursor

theorem parses_readBasicDir (hf : Tame f) (i : Inode) :
    Parses f (source f) (readBasicDir i) fun w j => ∃ startBlock nlink fileSize blockOffset parent,
      w = (InodeRecord.fields (.basicDir startBlock nlink fileSize blockOffset parent)).flatten ∧
        j = { i with dirStartBlock := startBlock, nlink, fileSize := fileSize.toUInt64,
                     dirBlockOffset := blockOffset } := by
  refine (parses_word_bind (parses_readU32 hf) fun a => parses_word_bind (parses_readU32 hf)
    fun b => parses_word_bind (parses_readU16 hf) fun c => parses_word_bind (parses_readU16 hf)
    fun d => parses_word_bind (parses_readU32 hf) fun e => parses_pure _).congr fun w j => ⟨?_, ?_⟩
  · rintro ⟨a, _, rfl, b, _, rfl, c, _, rfl, d, _, rfl, e, _, rfl, rfl, rfl⟩
    exact ⟨a, b, c, d, e, rfl, rfl⟩
  · rintro ⟨a, b, c, d, e, rfl, rfl⟩
    exact ⟨a, _, rfl, b, _, rfl, c, _, rfl, d, _, rfl, e, _, rfl, rfl, rfl⟩

theorem parses_readExtDir (hf : Tame f) (i : Inode) :
    Parses f (source f) (readExtDir i) fun w j =>
      ∃ nlink fileSize startBlock parent indexCount blockOffset xattr,
        w = (InodeRecord.fields (.extDir nlink fileSize startBlock parent indexCount blockOffset
          xattr)).flatten ∧
        j = { i with nlink, fileSize := fileSize.toUInt64, dirStartBlock := startBlock,
                     dirBlockOffset := blockOffset, xattrIndex := xattr } := by
  refine (parses_word_bind (parses_readU32 hf) fun a => parses_word_bind (parses_readU32 hf)
    fun b => parses_word_bind (parses_readU32 hf) fun c => parses_word_bind (parses_readU32 hf)
    fun d => parses_word_bind (parses_readU16 hf) fun e => parses_word_bind (parses_readU16 hf)
    fun g => parses_word_bind (parses_readU32 hf) fun x => parses_pure _).congr fun w j => ⟨?_, ?_⟩
  · rintro ⟨a, _, rfl, b, _, rfl, c, _, rfl, d, _, rfl, e, _, rfl, g, _, rfl, x, _, rfl, rfl, rfl⟩
    exact ⟨a, b, c, d, e, g, x, rfl, rfl⟩
  · rintro ⟨a, b, c, d, e, g, x, rfl, rfl⟩
    exact ⟨a, _, rfl, b, _, rfl, c, _, rfl, d, _, rfl, e, _, rfl, g, _, rfl, x, _, rfl, rfl, rfl⟩

theorem parses_readBasicFile (hf : Tame f) {blockSize : Nat} (hb : 0 < blockSize) (i : Inode) :
    Parses f (source f) (readBasicFile blockSize i) fun w j =>
      ∃ blocksStart fragment fragmentOffset fileSize sizes,
        InodeRecord.Valid blockSize (.basicFile blocksStart fragment fragmentOffset fileSize sizes) ∧
        w = (InodeRecord.fields (.basicFile blocksStart fragment fragmentOffset fileSize
          sizes)).flatten ∧
        j = { i with blocksStart := blocksStart.toUInt64, fragmentIndex := fragment,
                     fragmentOffset, fileSize := fileSize.toUInt64, blockSizes := sizes } := by
  refine (parses_word_bind (parses_readU32 hf) fun a => parses_word_bind (parses_readU32 hf)
    fun b => parses_word_bind (parses_readU32 hf) fun c => parses_word_bind (parses_readU32 hf)
    fun d => parses_lift_bind fun n => parses_bind (parses_readBlockSizes hf n)
    fun sizes => parses_pure _).congr fun w j => ⟨?_, ?_⟩
  · rintro ⟨a, _, rfl, b, _, rfl, c, _, rfl, d, _, rfl, n, hn, sizes, _, _, rfl, ⟨rfl, rfl⟩, rfl,
      rfl⟩
    exact ⟨a, b, c, d, sizes, (blockCount_eq_ok hb).mp hn, rfl, rfl⟩
  · rintro ⟨a, b, c, d, sizes, hvalid, rfl, rfl⟩
    exact ⟨a, _, rfl, b, _, rfl, c, _, rfl, d, _, rfl, _, (blockCount_eq_ok hb).mpr hvalid, sizes,
      _, _, rfl, ⟨rfl, rfl⟩, rfl, rfl⟩

theorem parses_readExtFile (hf : Tame f) {blockSize : Nat} (hb : 0 < blockSize) (i : Inode) :
    Parses f (source f) (readExtFile blockSize i) fun w j =>
      ∃ blocksStart fileSize sparse nlink fragment fragmentOffset xattr sizes,
        InodeRecord.Valid blockSize (.extFile blocksStart fileSize sparse nlink fragment
          fragmentOffset xattr sizes) ∧
        w = (InodeRecord.fields (.extFile blocksStart fileSize sparse nlink fragment
          fragmentOffset xattr sizes)).flatten ∧
        j = { i with blocksStart, fileSize, nlink, fragmentIndex := fragment, fragmentOffset,
                     xattrIndex := xattr, blockSizes := sizes } := by
  refine (parses_word_bind (parses_readU64 hf) fun a => parses_word_bind (parses_readU64 hf)
    fun b => parses_word_bind (parses_readU64 hf) fun c => parses_word_bind (parses_readU32 hf)
    fun d => parses_word_bind (parses_readU32 hf) fun e => parses_word_bind (parses_readU32 hf)
    fun g => parses_word_bind (parses_readU32 hf) fun x => parses_lift_bind
    fun n => parses_bind (parses_readBlockSizes hf n) fun sizes => parses_pure _).congr
    fun w j => ⟨?_, ?_⟩
  · rintro ⟨a, _, rfl, b, _, rfl, c, _, rfl, d, _, rfl, e, _, rfl, g, _, rfl, x, _, rfl, n, hn,
      sizes, _, _, rfl, ⟨rfl, rfl⟩, rfl, rfl⟩
    exact ⟨a, b, c, d, e, g, x, sizes, (blockCount_eq_ok hb).mp hn, rfl, rfl⟩
  · rintro ⟨a, b, c, d, e, g, x, sizes, hvalid, rfl, rfl⟩
    exact ⟨a, _, rfl, b, _, rfl, c, _, rfl, d, _, rfl, e, _, rfl, g, _, rfl, x, _, rfl, _,
      (blockCount_eq_ok hb).mpr hvalid, sizes, _, _, rfl, ⟨rfl, rfl⟩, rfl, rfl⟩

/-- A target's length on 32 bits, when it is within the bound. -/
theorem target_size {size : UInt32} {target : Bytes} (hlen : target.length = size.toNat) :
    size = UInt32.ofNat target.length := by
  rw [hlen, UInt32.ofNat_toNat]

theorem target_size_toNat {target : Bytes} (h : target.length ≤ 65536) :
    target.length = (UInt32.ofNat target.length).toNat := by
  rw [UInt32.toNat_ofNat']
  omega

theorem target_bound {size : UInt32} {target : Bytes} (hle : size ≤ MAX_SYMLINK)
    (hlen : target.length = size.toNat) : target.length ≤ 65536 := by
  rw [hlen]
  exact UInt32.le_iff_toNat_le.mp hle

theorem target_le {target : Bytes} (h : target.length ≤ 65536) :
    UInt32.ofNat target.length ≤ MAX_SYMLINK := by
  rw [UInt32.le_iff_toNat_le, ← target_size_toNat h]
  exact h

theorem parses_readBasicSymlink (hf : Tame f) (i : Inode) :
    Parses f (source f) (readBasicSymlink i) fun w j => ∃ nlink target,
      target.length ≤ 65536 ∧ w = (InodeRecord.fields (.basicSymlink nlink target)).flatten ∧
        j = { i with nlink, symlinkTarget := target,
                     fileSize := (UInt32.ofNat target.length).toUInt64 } := by
  refine (parses_word_bind (parses_readU32 hf) fun a => parses_word_bind (parses_readU32 hf)
    fun size => parses_bind (parses_readSymlink hf size) fun target => parses_pure _).congr
    fun w j => ⟨?_, ?_⟩
  · rintro ⟨a, _, rfl, size, _, rfl, target, _, _, rfl, ⟨hle, rfl, hlen⟩, rfl, rfl⟩
    have hsize := target_size hlen
    have hbound := target_bound hle hlen
    subst hsize
    exact ⟨a, _, hbound, rfl, rfl⟩
  · rintro ⟨a, target, hle, rfl, rfl⟩
    exact ⟨a, _, rfl, _, _, rfl, target, _, _, rfl,
      ⟨target_le hle, rfl, target_size_toNat hle⟩, rfl, rfl⟩

theorem parses_readExtSymlink (hf : Tame f) (i : Inode) :
    Parses f (source f) (readExtSymlink i) fun w j => ∃ nlink target xattr,
      target.length ≤ 65536 ∧ w = (InodeRecord.fields (.extSymlink nlink target xattr)).flatten ∧
        j = { i with nlink, symlinkTarget := target,
                     fileSize := (UInt32.ofNat target.length).toUInt64, xattrIndex := xattr } := by
  refine (parses_word_bind (parses_readU32 hf) fun a => parses_word_bind (parses_readU32 hf)
    fun size => parses_bind (parses_readSymlink hf size) fun target =>
    parses_word_bind (parses_readU32 hf) fun x => parses_pure _).congr fun w j => ⟨?_, ?_⟩
  · rintro ⟨a, _, rfl, size, _, rfl, target, _, _, rfl, ⟨hle, rfl, hlen⟩, x, _, rfl, rfl, rfl⟩
    have hsize := target_size hlen
    have hbound := target_bound hle hlen
    subst hsize
    exact ⟨a, _, x, hbound, rfl, rfl⟩
  · rintro ⟨a, target, x, hle, rfl, rfl⟩
    exact ⟨a, _, rfl, _, _, rfl, target, _, _, rfl,
      ⟨target_le hle, rfl, target_size_toNat hle⟩, x, _, rfl, rfl, rfl⟩

theorem parses_readBasicDev (hf : Tame f) (i : Inode) :
    Parses f (source f) (readBasicDev i) fun w j => ∃ nlink rdev,
      w = [u32Bytes nlink, u32Bytes rdev].flatten ∧ j = { i with nlink, rdev } := by
  refine (parses_word_bind (parses_readU32 hf) fun a => parses_word_bind (parses_readU32 hf)
    fun b => parses_pure _).congr fun w j => ⟨?_, ?_⟩
  · rintro ⟨a, _, rfl, b, _, rfl, rfl, rfl⟩
    exact ⟨a, b, rfl, rfl⟩
  · rintro ⟨a, b, rfl, rfl⟩
    exact ⟨a, _, rfl, b, _, rfl, rfl, rfl⟩

theorem parses_readExtDev (hf : Tame f) (i : Inode) :
    Parses f (source f) (readExtDev i) fun w j => ∃ nlink rdev xattr,
      w = [u32Bytes nlink, u32Bytes rdev, u32Bytes xattr].flatten ∧
        j = { i with nlink, rdev, xattrIndex := xattr } := by
  refine (parses_word_bind (parses_readU32 hf) fun a => parses_word_bind (parses_readU32 hf)
    fun b => parses_word_bind (parses_readU32 hf) fun x => parses_pure _).congr
    fun w j => ⟨?_, ?_⟩
  · rintro ⟨a, _, rfl, b, _, rfl, x, _, rfl, rfl, rfl⟩
    exact ⟨a, b, x, rfl, rfl⟩
  · rintro ⟨a, b, x, rfl, rfl⟩
    exact ⟨a, _, rfl, b, _, rfl, x, _, rfl, rfl, rfl⟩

theorem parses_readBasicIpc (hf : Tame f) (i : Inode) :
    Parses f (source f) (readBasicIpc i) fun w j => ∃ nlink,
      w = [u32Bytes nlink].flatten ∧ j = { i with nlink } := by
  refine (parses_word_bind (parses_readU32 hf) fun a => parses_pure _).congr fun w j => ⟨?_, ?_⟩
  · rintro ⟨a, _, rfl, rfl, rfl⟩
    exact ⟨a, rfl, rfl⟩
  · rintro ⟨a, rfl, rfl⟩
    exact ⟨a, _, rfl, rfl, rfl⟩

theorem parses_readExtIpc (hf : Tame f) (i : Inode) :
    Parses f (source f) (readExtIpc i) fun w j => ∃ nlink xattr,
      w = [u32Bytes nlink, u32Bytes xattr].flatten ∧ j = { i with nlink, xattrIndex := xattr } := by
  refine (parses_word_bind (parses_readU32 hf) fun a => parses_word_bind (parses_readU32 hf)
    fun x => parses_pure _).congr fun w j => ⟨?_, ?_⟩
  · rintro ⟨a, _, rfl, x, _, rfl, rfl, rfl⟩
    exact ⟨a, x, rfl, rfl⟩
  · rintro ⟨a, x, rfl, rfl⟩
    exact ⟨a, _, rfl, x, _, rfl, rfl, rfl⟩

theorem target_fileSize {target : Bytes} (h : target.length ≤ 65536) :
    (UInt32.ofNat target.length).toUInt64 = UInt64.ofNat target.length := by
  apply UInt64.toNat_inj.mp
  rw [UInt32.toNat_toUInt64, ← target_size_toNat h, UInt64.toNat_ofNat']
  omega

/-- The inode that header `h` with type `t` gives. -/
def ofInodeHeader (t : UInt16) (h : InodeHeader) : Inode :=
  ofHeader t h.permissions h.uidIdx h.gidIdx h.mtime h.inodeNumber

/-- The records of type `t`, each with the inode it describes. -/
def RecordOf (blockSize : Nat) (t : UInt16) (h : InodeHeader) (w : Bytes) (j : Inode) : Prop :=
  ∃ r : InodeRecord, r.typeId = t ∧ r.Valid blockSize ∧ w = r.fields.flatten ∧ j = r.toInode h

/-- The fields after the header are those of one record of the type. -/
theorem parses_readFields (hf : Tame f) {blockSize : Nat} (hb : 0 < blockSize) (t : UInt16)
    (h : InodeHeader) :
    Parses f (source f) (readFields blockSize (ofInodeHeader t h)) (RecordOf blockSize t h) := by
  unfold readFields
  split
  · rename_i ht
    have ht : t = 1 := ht
    subst ht
    refine (parses_readBasicDir hf _).congr fun w j => ⟨?_, ?_⟩
    · rintro ⟨a, b, c, d, e, rfl, rfl⟩
      exact ⟨.basicDir a b c d e, rfl, trivial, rfl, rfl⟩
    · rintro ⟨r, htype, hvalid, rfl, rfl⟩
      cases r with
      | basicDir a b c d e => exact ⟨a, b, c, d, e, rfl, rfl⟩
      | _ => simp at htype
  split
  · rename_i ht
    have ht : t = 8 := ht
    subst ht
    refine (parses_readExtDir hf _).congr fun w j => ⟨?_, ?_⟩
    · rintro ⟨a, b, c, d, e, g, x, rfl, rfl⟩
      exact ⟨.extDir a b c d e g x, rfl, trivial, rfl, rfl⟩
    · rintro ⟨r, htype, hvalid, rfl, rfl⟩
      cases r with
      | extDir a b c d e g x => exact ⟨a, b, c, d, e, g, x, rfl, rfl⟩
      | _ => simp at htype
  split
  · rename_i ht
    have ht : t = 2 := ht
    subst ht
    refine (parses_readBasicFile hf hb _).congr fun w j => ⟨?_, ?_⟩
    · rintro ⟨a, b, c, d, sizes, hvalid, rfl, rfl⟩
      exact ⟨.basicFile a b c d sizes, rfl, hvalid, rfl, rfl⟩
    · rintro ⟨r, htype, hvalid, rfl, rfl⟩
      cases r with
      | basicFile a b c d sizes => exact ⟨a, b, c, d, sizes, hvalid, rfl, rfl⟩
      | _ => simp at htype
  split
  · rename_i ht
    have ht : t = 9 := ht
    subst ht
    refine (parses_readExtFile hf hb _).congr fun w j => ⟨?_, ?_⟩
    · rintro ⟨a, b, c, d, e, g, x, sizes, hvalid, rfl, rfl⟩
      exact ⟨.extFile a b c d e g x sizes, rfl, hvalid, rfl, rfl⟩
    · rintro ⟨r, htype, hvalid, rfl, rfl⟩
      cases r with
      | extFile a b c d e g x sizes => exact ⟨a, b, c, d, e, g, x, sizes, hvalid, rfl, rfl⟩
      | _ => simp at htype
  split
  · rename_i ht
    have ht : t = 3 := ht
    subst ht
    refine (parses_readBasicSymlink hf _).congr fun w j => ⟨?_, ?_⟩
    · rintro ⟨a, target, hvalid, rfl, rfl⟩
      exact ⟨.basicSymlink a target, rfl, hvalid, rfl, by rw [target_fileSize hvalid]; rfl⟩
    · rintro ⟨r, htype, hvalid, rfl, rfl⟩
      cases r with
      | basicSymlink a target => exact ⟨a, target, hvalid, rfl, by rw [target_fileSize hvalid]; rfl⟩
      | _ => simp at htype
  split
  · rename_i ht
    have ht : t = 10 := ht
    subst ht
    refine (parses_readExtSymlink hf _).congr fun w j => ⟨?_, ?_⟩
    · rintro ⟨a, target, x, hvalid, rfl, rfl⟩
      exact ⟨.extSymlink a target x, rfl, hvalid, rfl, by rw [target_fileSize hvalid]; rfl⟩
    · rintro ⟨r, htype, hvalid, rfl, rfl⟩
      cases r with
      | extSymlink a target x => exact ⟨a, target, x, hvalid, rfl, by rw [target_fileSize hvalid]; rfl⟩
      | _ => simp at htype
  split
  · rename_i ht
    have ht : t = 4 ∨ t = 5 := ht
    refine (parses_readBasicDev hf _).congr fun w j => ⟨?_, ?_⟩
    · rintro ⟨a, b, rfl, rfl⟩
      rcases ht with rfl | rfl
      · exact ⟨.basicBlkdev a b, rfl, trivial, rfl, rfl⟩
      · exact ⟨.basicChrdev a b, rfl, trivial, rfl, rfl⟩
    · rintro ⟨r, rfl, hvalid, rfl, rfl⟩
      cases r with
      | basicBlkdev a b => exact ⟨a, b, rfl, rfl⟩
      | basicChrdev a b => exact ⟨a, b, rfl, rfl⟩
      | _ => simp at ht
  split
  · rename_i ht
    have ht : t = 11 ∨ t = 12 := ht
    refine (parses_readExtDev hf _).congr fun w j => ⟨?_, ?_⟩
    · rintro ⟨a, b, x, rfl, rfl⟩
      rcases ht with rfl | rfl
      · exact ⟨.extBlkdev a b x, rfl, trivial, rfl, rfl⟩
      · exact ⟨.extChrdev a b x, rfl, trivial, rfl, rfl⟩
    · rintro ⟨r, rfl, hvalid, rfl, rfl⟩
      cases r with
      | extBlkdev a b x => exact ⟨a, b, x, rfl, rfl⟩
      | extChrdev a b x => exact ⟨a, b, x, rfl, rfl⟩
      | _ => simp at ht
  split
  · rename_i ht
    have ht : t = 6 ∨ t = 7 := ht
    refine (parses_readBasicIpc hf _).congr fun w j => ⟨?_, ?_⟩
    · rintro ⟨a, rfl, rfl⟩
      rcases ht with rfl | rfl
      · exact ⟨.basicFifo a, rfl, trivial, rfl, rfl⟩
      · exact ⟨.basicSocket a, rfl, trivial, rfl, rfl⟩
    · rintro ⟨r, rfl, hvalid, rfl, rfl⟩
      cases r with
      | basicFifo a => exact ⟨a, rfl, rfl⟩
      | basicSocket a => exact ⟨a, rfl, rfl⟩
      | _ => simp at ht
  split
  · rename_i ht
    have ht : t = 13 ∨ t = 14 := ht
    refine (parses_readExtIpc hf _).congr fun w j => ⟨?_, ?_⟩
    · rintro ⟨a, x, rfl, rfl⟩
      rcases ht with rfl | rfl
      · exact ⟨.extFifo a x, rfl, trivial, rfl, rfl⟩
      · exact ⟨.extSocket a x, rfl, trivial, rfl, rfl⟩
    · rintro ⟨r, rfl, hvalid, rfl, rfl⟩
      cases r with
      | extFifo a x => exact ⟨a, x, rfl, rfl⟩
      | extSocket a x => exact ⟨a, x, rfl, rfl⟩
      | _ => simp at ht
  -- no record has any other type
  rename_i h1 h2 h3 h4 h5 h6 h7 h8 h9 h10
  have hnone : ∀ w j, ¬ RecordOf blockSize t h w j := by
    rintro w j ⟨r, rfl, -⟩
    cases r with
    | basicDir => exact h1 rfl
    | extDir => exact h2 rfl
    | basicFile => exact h3 rfl
    | extFile => exact h4 rfl
    | basicSymlink => exact h5 rfl
    | extSymlink => exact h6 rfl
    | basicBlkdev => exact h7 (.inl rfl)
    | basicChrdev => exact h7 (.inr rfl)
    | extBlkdev => exact h8 (.inl rfl)
    | extChrdev => exact h8 (.inr rfl)
    | basicFifo => exact h9 (.inl rfl)
    | basicSocket => exact h9 (.inr rfl)
    | extFifo => exact h10 (.inl rfl)
    | extSocket => exact h10 (.inr rfl)
  split
  · exact (parses_throw _).congr fun w j => ⟨False.elim, hnone w j⟩
  · exact (parses_throw _).congr fun w j => ⟨False.elim, hnone w j⟩

/-- **The parser reads exactly the format**: it succeeds on the streams that begin with a valid
record, consumes it, and gives the inode it describes. -/
theorem parses_readBody (hf : Tame f) {blockSize : Nat} (hb : 0 < blockSize) :
    Parses f (source f) (readBody blockSize) fun w j =>
      ∃ (h : InodeHeader) (r : InodeRecord),
        r.Valid blockSize ∧ w = r.encode h ∧ j = r.toInode h := by
  refine (parses_word_bind (parses_readU16 hf) fun t => parses_word_bind (parses_readU16 hf)
    fun a => parses_word_bind (parses_readU16 hf) fun b => parses_word_bind (parses_readU16 hf)
    fun c => parses_word_bind (parses_readU32 hf) fun d => parses_word_bind (parses_readU32 hf)
    fun e => parses_readFields hf hb t ⟨a, b, c, d, e⟩).congr fun w j => ⟨?_, ?_⟩
  · rintro ⟨t, _, rfl, a, _, rfl, b, _, rfl, c, _, rfl, d, _, rfl, e, _, rfl, r, rfl, hvalid, rfl,
      rfl⟩
    exact ⟨⟨a, b, c, d, e⟩, r, hvalid, rfl, rfl⟩
  · rintro ⟨⟨a, b, c, d, e⟩, r, hvalid, rfl, rfl⟩
    exact ⟨_, _, rfl, a, _, rfl, b, _, rfl, c, _, rfl, d, _, rfl, e, _, rfl, r, rfl, hvalid, rfl,
      rfl⟩

/-- A reference opens on exactly the records of the format. -/
theorem exec_read (hf : Tame f) (sb : Superblock) (inodeRef : UInt64) (j : Inode) :
    Asking.exec f (read sb inodeRef) = .ok j ↔
      ∃ (h : InodeHeader) (r : InodeRecord), r.Valid sb.blockSize.toNat ∧ j = r.toInode h ∧
        StreamAt f ((MetadataRef.fromPacked inodeRef).startAbs sb.inodeTableStart)
          (MetadataRef.fromPacked inodeRef).inBlock.toNat (r.encode h) := by
  unfold read
  rw [exec_parseAt hf (parses_readBody hf sb.blockSize_pos)]
  constructor
  · rintro ⟨w, hw, h, r, hvalid, rfl, rfl⟩
    exact ⟨h, r, hvalid, rfl, hw⟩
  · rintro ⟨h, r, hvalid, rfl, hw⟩
    exact ⟨_, hw, h, r, hvalid, rfl, rfl⟩

/-! ### The parser returns -/

theorem returns_blockCount {blockSize : Nat} (hb : 0 < blockSize) (fileSize : Nat)
    (fragment : UInt32) : Returns (blockCount fileSize blockSize fragment) := by
  have hne : blockSize ≠ 0 := Nat.pos_iff_ne_zero.mp hb
  unfold blockCount
  refine returns_bind (returns_ite (fun _ => ?_) fun _ => ?_) fun n _ =>
    returns_ite (fun _ => trivial) fun _ => trivial
  · exact returns_guarded.mpr hne
  · exact returns_guarded.mpr hne

/-- A property of cursor programs that holds of what the inode parser is made of, and that
sequencing keeps. -/
structure FieldRule (P : (α : Type) → CurM α → Prop) (blockSize : Nat) : Prop where
  pure : ∀ {α : Type} (a : α), P α (pure a)
  bind : ∀ {α β : Type} {m : CurM α} {g : α → CurM β}, P α m → (∀ a, P β (g a)) → P β (m >>= g)
  bad : ∀ {α : Type} why, P α (throw (.err (.badInode why)))
  word16 : P UInt16 readU16
  word32 : P UInt32 readU32
  word64 : P UInt64 readU64
  bytes : ∀ size : UInt32, P Bytes (readExact size.toNat)
  count : ∀ fileSize fragment, P Nat (liftM (blockCount fileSize blockSize fragment))

namespace FieldRule

variable {P : (α : Type) → CurM α → Prop} {blockSize : Nat} (h : FieldRule P blockSize)
include h

theorem readBlockSizes (n : Nat) : P (List UInt32) (Squashfs.readBlockSizes n) := by
  unfold Squashfs.readBlockSizes
  induction n with
  | zero => exact h.pure []
  | succ n ih => exact h.bind h.word32 fun _ => h.bind ih fun _ => h.pure _

theorem readSymlink (size : UInt32) : P Bytes (Squashfs.readSymlink size) := by
  unfold Squashfs.readSymlink
  split
  · exact h.bad _
  · exact h.bytes size

theorem readBasicDir (i : Inode) : P Inode (Inode.readBasicDir i) := by
  unfold Inode.readBasicDir
  iterate 2 refine h.bind h.word32 fun _ => ?_
  iterate 2 refine h.bind h.word16 fun _ => ?_
  exact h.bind h.word32 fun _ => h.pure _

theorem readExtDir (i : Inode) : P Inode (Inode.readExtDir i) := by
  unfold Inode.readExtDir
  iterate 4 refine h.bind h.word32 fun _ => ?_
  iterate 2 refine h.bind h.word16 fun _ => ?_
  exact h.bind h.word32 fun _ => h.pure _

theorem readBasicFile (i : Inode) : P Inode (Inode.readBasicFile blockSize i) := by
  unfold Inode.readBasicFile
  iterate 4 refine h.bind h.word32 fun _ => ?_
  exact h.bind (h.count _ _) fun n => h.bind (h.readBlockSizes n) fun _ => h.pure _

theorem readExtFile (i : Inode) : P Inode (Inode.readExtFile blockSize i) := by
  unfold Inode.readExtFile
  iterate 3 refine h.bind h.word64 fun _ => ?_
  iterate 4 refine h.bind h.word32 fun _ => ?_
  exact h.bind (h.count _ _) fun n => h.bind (h.readBlockSizes n) fun _ => h.pure _

theorem readBasicSymlink (i : Inode) : P Inode (Inode.readBasicSymlink i) := by
  unfold Inode.readBasicSymlink
  iterate 2 refine h.bind h.word32 fun _ => ?_
  exact h.bind (h.readSymlink _) fun _ => h.pure _

theorem readExtSymlink (i : Inode) : P Inode (Inode.readExtSymlink i) := by
  unfold Inode.readExtSymlink
  iterate 2 refine h.bind h.word32 fun _ => ?_
  exact h.bind (h.readSymlink _) fun _ => h.bind h.word32 fun _ => h.pure _

theorem readBasicDev (i : Inode) : P Inode (Inode.readBasicDev i) :=
  h.bind h.word32 fun _ => h.bind h.word32 fun _ => h.pure _

theorem readExtDev (i : Inode) : P Inode (Inode.readExtDev i) :=
  h.bind h.word32 fun _ => h.bind h.word32 fun _ => h.bind h.word32 fun _ => h.pure _

theorem readBasicIpc (i : Inode) : P Inode (Inode.readBasicIpc i) :=
  h.bind h.word32 fun _ => h.pure _

theorem readExtIpc (i : Inode) : P Inode (Inode.readExtIpc i) :=
  h.bind h.word32 fun _ => h.bind h.word32 fun _ => h.pure _

theorem readFields (i : Inode) : P Inode (Inode.readFields blockSize i) := by
  unfold Inode.readFields
  repeat' split
  · exact h.readBasicDir i
  · exact h.readExtDir i
  · exact h.readBasicFile i
  · exact h.readExtFile i
  · exact h.readBasicSymlink i
  · exact h.readExtSymlink i
  · exact h.readBasicDev i
  · exact h.readExtDev i
  · exact h.readBasicIpc i
  · exact h.readExtIpc i
  · exact h.bad _
  · exact h.bad _

/-- **The rule for the inode parser.** -/
theorem readBody : P Inode (Inode.readBody blockSize) := by
  unfold Inode.readBody
  iterate 4 refine h.bind h.word16 fun _ => ?_
  iterate 2 refine h.bind h.word32 fun _ => ?_
  exact h.readFields _

end FieldRule

/-- **The inode parser returns**, whatever the stream holds. -/
theorem keeps_readBody (hf : Tame f) {blockSize : Nat} (hb : 0 < blockSize) :
    Keeps f Good (fun _ => True) (readBody blockSize) := by
  have h : FieldRule (fun _ m => Keeps f Good (fun _ => True) m) blockSize := {
    pure := fun _ => keeps_pure trivial
    bind := fun hm hg => keeps_bind hm fun a _ => hg a
    bad := fun _ => keeps_throw
    word16 := keeps_readU16 hf
    word32 := keeps_readU32 hf
    word64 := keeps_readU64 hf
    bytes := fun size =>
      (keeps_readExact hf (Nat.le_of_lt size.toNat_lt)).mono fun _ _ => trivial
    count := fun fileSize fragment =>
      keeps_lift ((returns_blockCount hb fileSize fragment).safe fun _ _ => trivial) }
  exact h.readBody

theorem returns_read (hf : Tame f) (sb : Superblock) (inodeRef : UInt64) :
    Returns (Asking.exec f (read sb inodeRef)) :=
  (returns_parseAt hf (keeps_readBody hf sb.blockSize_pos) _ _).returns

end Inode

end Exact

end Squashfs
