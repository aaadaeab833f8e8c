import Squashfs.Dir
import Squashfs.Image

/-!
# The filesystem

Model of `Filesystem` (`src/fs.rs:185-806`) and `directory_table_end` (162-183). The caches of
decoded blocks (74-135) are `Cache`'s.

`openWithCache` reads the superblock and the small tables once; the other operations read inodes,
directories, paths, files and attributes through them. Each operation that goes through the caches
is a `Prog` asking for blocks, and `readFile` also writes into its caller's buffer, whose bytes
survive a failure.

The block cache under the reader is `fs_core`'s `CachingDevice`, not of this repository: it is a
parameter (`Caching`), and a result that rests on what it serves says so (`Caching.Transparent`).

Out of scope: `lookup_path` (502-504), which passes a string's bytes on. The capacities and counters
of the caches (305-343) are `CacheAccounts`'s, and the ids' owners (361-380) `Capi`'s.
-/

namespace Squashfs

open Foundation

/-- An open image. -/
structure Filesystem where
  dev : Device
  sb : Superblock
  comp : Compressor
  idTable : List UInt32
  fragments : List FragmentEntry
  xattrIds : Option XattrIdTable
  exports : Option ExportTable
  dirTableEnd : Nat

/-- The first word of the table at `start`, when it can be read and is past the directory table's
start. -/
def firstBlockPast (dev : Device) (sb : Superblock) (start : UInt64) : Option Nat :=
  match dev.readAt start.toNat 8 with
  | .ok first => if sb.directoryTableStart < u64le first then some (u64le first).toNat else none
  | .error _ => none

/-- Where the directory table ends. -/
def directoryTableEnd (dev : Device) (sb : Superblock) : Nat :=
  let tables := [(sb.fragmentTableStart, decide (0 < sb.fragmentEntryCount)),
    (sb.exportTableStart, true), (sb.idTableStart, decide (0 < sb.idCount)),
    (sb.xattrIdTableStart, true)]
  tables.foldl (fun stop (start, hasBlocks) =>
    if start = NO_TABLE ∨ ¬ hasBlocks then stop
    else
      match firstBlockPast dev sb start with
      | some first => min stop first
      | none => stop) sb.directoryTableEnd

/-- A block cache under the reader, `CachingDevice::read_only`: the device that a device is read
through, by the cache's block size and its number of blocks. -/
abbrev Caching := (dev : Device) → (blockSize : UInt64) → (blocks : Nat) → Device

/-- The cache serves the device's own bytes, and fails where the device fails. -/
def Caching.Transparent (caching : Caching) : Prop :=
  ∀ dev blockSize blocks, (caching dev blockSize blocks).sizeBytes = dev.sizeBytes ∧
    ∀ offset n, (caching dev blockSize blocks).readAt offset n = dev.readAt offset n

theorem Caching.Transparent.eq_self {caching : Caching} (h : caching.Transparent) (dev : Device)
    (blockSize : UInt64) (blocks : Nat) : caching dev blockSize blocks = dev := by
  obtain ⟨hsize, hreads⟩ := h dev blockSize blocks
  exact Device.ext (funext₂ hreads) hsize

/-- The cache that keeps nothing. -/
def Caching.through : Caching := fun dev _ _ => dev

theorem Caching.transparent_through : Caching.through.Transparent :=
  fun _ _ _ => ⟨rfl, fun _ _ => rfl⟩

/-- Open an image, with a block cache of `blocks` blocks under it. -/
def openWithCache (caching : Caching) (codecs : Codecs) (dev : Device) (blocks : Nat) :
    Res Filesystem := do
  let dev ← (if blocks = 0 then return dev
    else do
      let sb ← Superblock.read dev
      return caching dev sb.blockSize.toUInt64 blocks)
  let sb ← Superblock.read dev
  sb.validateAgainstDevice dev.sizeBytes
  let comp ← sb.compressor
  if ¬ comp.isSupported then fails (.unsupportedCompression sb.compressionId)
  else
    let idTable ← readIdTable codecs dev sb
    let fragments ← readFragmentTable codecs dev sb
    let xattrIds ← Xattr.readIdTable codecs dev sb
    let exports ← readExportTable dev sb
    return ⟨dev, sb, comp, idTable, fragments, xattrIds, exports, directoryTableEnd dev sb⟩

/-- What an open image holds of the one it was opened from. -/
theorem dirTableEnd_of_open {caching : Caching} {codecs : Codecs} {dev : Device} {blocks : Nat}
    {fs : Filesystem} (h : openWithCache caching codecs dev blocks = .ok fs) :
    fs.dirTableEnd = Squashfs.directoryTableEnd fs.dev fs.sb := by
  unfold openWithCache at h
  obtain ⟨dev', -, h⟩ := bind_eq_ok.mp h
  obtain ⟨sb, -, h⟩ := bind_eq_ok.mp h
  obtain ⟨_, -, h⟩ := bind_eq_ok.mp h
  obtain ⟨comp, -, h⟩ := bind_eq_ok.mp h
  split at h
  · cases h
  obtain ⟨idTable, -, h⟩ := bind_eq_ok.mp h
  obtain ⟨fragments, -, h⟩ := bind_eq_ok.mp h
  obtain ⟨xattrIds, -, h⟩ := bind_eq_ok.mp h
  obtain ⟨exports, -, h⟩ := bind_eq_ok.mp h
  cases h
  rfl

/-- The blocks the archive's own cache is sized to by default. -/
def DEFAULT_CACHE_BLOCKS : Nat := 32

/-- Open an image. -/
def openImage (caching : Caching) (codecs : Codecs) (dev : Device) : Res Filesystem :=
  openWithCache caching codecs dev DEFAULT_CACHE_BLOCKS

/-- The sample image, opened. -/
def Filesystem.sample : Filesystem where
  dev := Device.ofBytes PlainImage.sample.bytes PlainImage.sample_lt
  sb := PlainImage.sample.superblock
  comp := .gzip
  idTable := [0]
  fragments := []
  xattrIds := none
  exports := none
  dirTableEnd := 189

set_option maxRecDepth 10000 in
theorem openImage_sample :
    openImage .through .none (Device.ofBytes PlainImage.sample.bytes PlainImage.sample_lt) =
      .ok Filesystem.sample := rfl

/-! ## Opening returns -/

/-- **Opening an image returns.** -/
theorem returns_openWithCache (caching : Caching) (codecs : Codecs) (dev : Device) (blocks : Nat) :
    Returns (openWithCache caching codecs dev blocks) := by
  unfold openWithCache
  refine returns_bind (returns_ite (fun _ => trivial) fun _ =>
    returns_bind (Superblock.returns_read dev) fun _ _ => trivial) fun dev _ => ?_
  refine returns_bind (Superblock.returns_read dev) fun sb _ => ?_
  refine returns_bind (sb.returns_validateAgainstDevice _) fun _ _ => ?_
  refine returns_bind (returns_compressorFromId _) fun comp _ => ?_
  refine returns_ite (fun _ => trivial) fun _ => ?_
  refine returns_bind (returns_readIdTable codecs dev sb) fun _ _ => ?_
  refine returns_bind (returns_readFragmentTable codecs dev sb) fun _ _ => ?_
  refine returns_bind (Xattr.returns_readIdTable codecs dev sb) fun _ _ => ?_
  exact returns_bind (returns_readExportTable dev sb) fun _ _ => trivial

/-- `read_data_block`, through the data cache. -/
def readDataBlock (absOff : Nat) (sizeWord : UInt32) (maxOut : Nat) : Prog Bytes :=
  ExceptT.mk (Query.ask (.data absOff sizeWord maxOut) .ret)

@[simp] theorem exec_readDataBlock (f : ∀ q, Reply q) (absOff : Nat) (sizeWord : UInt32)
    (maxOut : Nat) :
    Asking.exec f (readDataBlock absOff sizeWord maxOut) = f (.data absOff sizeWord maxOut) := rfl

namespace Filesystem

/-- Every request of the reader answered from the image, with the caches switched off. -/
def answers (fs : Filesystem) (codecs : Codecs) : ∀ q, Reply q :=
  uncached codecs fs.dev fs.sb fs.comp

theorem tame_answers (fs : Filesystem) (codecs : Codecs) : Tame (fs.answers codecs) :=
  tame_uncached codecs fs.dev fs.sb fs.comp

/-! ## Inodes -/

def readInode (fs : Filesystem) (inodeRef : UInt64) : Prog Inode := Inode.read fs.sb inodeRef

def rootInode (fs : Filesystem) : Prog Inode := fs.readInode fs.sb.rootInodeRef

/-- The packed reference of an inode number, through the export table. -/
def inodeRefForNumber (fs : Filesystem) (inodeNumber : UInt32) : Prog UInt64 :=
  match fs.exports with
  | none => throw (.err .notExportable)
  | some exports => exports.lookup inodeNumber

def readInodeByNumber (fs : Filesystem) (inodeNumber : UInt32) : Prog Inode := do
  let inodeRef ← fs.inodeRefForNumber inodeNumber
  fs.readInode inodeRef

/-! ## Directories and paths -/

/-- Where a directory's listing starts. -/
def listingStart (fs : Filesystem) (inode : Inode) : Nat :=
  MetadataRef.startAbs ⟨inode.dirStartBlock.toUInt64, inode.dirBlockOffset⟩
    fs.sb.directoryTableStart

/-- The error of a listing that runs past the directory table. -/
def PAST_TABLE_END : String := "directory listing runs past the end of the directory table"

/-- The bytes of a directory's listing. -/
def readListing (fs : Filesystem) (inode : Inode) : Prog Bytes := do
  let cur ← MetaCursor.new (fs.listingStart inode) inode.dirBlockOffset
  (MetaCursor.readExact inode.dirListingLen).eval (cur.withLimit fs.dirTableEnd PAST_TABLE_END)

/-- A directory's entries, in order. -/
def readDir (fs : Filesystem) (inode : Inode) : Prog (List DirEntry) := do
  if ¬ inode.isDir then throw (.err .notADirectory)
  else if inode.dirListingLen = 0 then return []
  else
    let buf ← fs.readListing inode
    parseListing buf

/-- The inode of the first entry with the name. -/
def lookup (fs : Filesystem) (dir : Inode) (name : Bytes) : Prog Inode := do
  let entries ← fs.readDir dir
  match entries.find? (·.name == name) with
  | some e => fs.readInode e.inodeRef
  | none => throw (.err .notFound)

/-- `path.split(|&b| b == b'/').filter(|c| !c.is_empty())`. -/
def components (path : Bytes) : List Bytes := (path.splitOn 0x2F).filter (!·.isEmpty)

/-- Resolve components one after the other. -/
def walk (fs : Filesystem) : Inode → List Bytes → Prog Inode
  | node, [] => return node
  | node, comp :: comps => do
    if ¬ node.isDir then throw (.err .notADirectory)
    else
      let next ← fs.lookup node comp
      fs.walk next comps

/-- Resolve a `/`-separated path from the root. -/
def lookupPathBytes (fs : Filesystem) (path : Bytes) : Prog Inode := do
  let root ← fs.rootInode
  fs.walk root (components path)

/-! ## Extended attributes -/

/-- Every extended attribute of an inode, in the image's order. -/
def listXattrs (fs : Filesystem) (inode : Inode) : Prog (List XattrEntry) :=
  match fs.xattrIds with
  | none => return []
  | some table => if ¬ inode.hasXattrs then return [] else Xattr.readSet table inode.xattrIndex

/-- One attribute's value, by name. -/
def getXattr (fs : Filesystem) (inode : Inode) (name : Bytes) : Prog (Option Bytes) := do
  let entries ← fs.listXattrs inode
  return (entries.find? (·.name == name)).map (·.value)

/-! ## Symlinks -/

/-- A symlink's target. -/
def readSymlinkTarget (inode : Inode) : Res Bytes :=
  if ¬ inode.isSymlink then fails (.badInode "read_symlink_target on non-symlink")
  else return inode.symlinkTarget

/-! ## Files -/

/-- One logical block of a file: a decoded block and the part of it that is the file's. -/
structure LogicalBlock where
  bytes : Bytes
  start : Nat
  stop : Nat

def LogicalBlock.asSlice (b : LogicalBlock) : Res Bytes := slice b.bytes b.start b.stop

/-- The offsets of blocks stored one after the other from `cursor` on. -/
def offsetsFrom (cursor : Nat) : List UInt32 → List Nat
  | [] => []
  | size :: sizes =>
    cursor :: offsetsFrom (saturatingAdd cursor (dataOnDiskSize size).toNat) sizes

/-- Where each full data block of a file starts. -/
def blockOffsets (inode : Inode) : List Nat := offsetsFrom inode.blocksStart.toNat inode.blockSizes

/-- The full data block number `blockIdx`. -/
def readFullBlock (fs : Filesystem) (inode : Inode) (blockIdx : Nat) (offsets : List Nat) :
    Prog LogicalBlock := do
  let bs := fs.sb.blockSize.toNat
  let skipped ← (mul64 blockIdx bs : Res Nat)
  let rest ← (sub64 inode.fileSize.toNat skipped : Res Nat)
  let logicalLen := min bs rest
  let sizeWord ← (index inode.blockSizes blockIdx : Res UInt32)
  if (dataOnDiskSize sizeWord).toNat = 0 then
    return ⟨List.replicate logicalLen 0, 0, logicalLen⟩
  else
    let absOff ← (index offsets blockIdx : Res Nat)
    let block ← readDataBlock absOff sizeWord logicalLen
    if block.length ≠ logicalLen then
      throw (.err (.badInode "data block decoded to the wrong length"))
    else return ⟨block, 0, logicalLen⟩

/-- The tail of a file, in its fragment block. -/
def readFragmentTail (fs : Filesystem) (inode : Inode) : Prog LogicalBlock := do
  let bs := fs.sb.blockSize.toNat
  let frag ← okOr (.badInode "fragment index out of range")
    fs.fragments[inode.fragmentIndex.toNat]?
  let fragBlock ← readDataBlock frag.start.toNat frag.size bs
  let skipped ← (mul64 inode.blockSizes.length bs : Res Nat)
  let tailLen ← (sub64 inode.fileSize.toNat skipped : Res Nat)
  let start := inode.fragmentOffset.toNat
  let stop ← okOr (.badInode "fragment offset overflow") (checkedAdd start tailLen)
  if fragBlock.length < stop then
    throw (.err (.badInode "fragment tail past fragment block end"))
  else return ⟨fragBlock, start, stop⟩

/-- One logical block: a full data block, or the tail fragment after them. -/
def readLogicalBlock (fs : Filesystem) (inode : Inode) (blockIdx : Nat) (offsets : List Nat) :
    Prog LogicalBlock :=
  if blockIdx < inode.blockSizes.length then fs.readFullBlock inode blockIdx offsets
  else if inode.hasFragment then fs.readFragmentTail inode
  else throw (.err .outOfRange)

/-- A method that writes into its caller's buffer. -/
abbrev BufM (α : Type) := Stateful Req Reply Error Bytes α

/-- One turn of the read loop: the bytes of one logical block into the buffer at `written`. The
number of bytes written so far. -/
def readChunk (fs : Filesystem) (inode : Inode) (offsets : List Nat) (offset toRead written : Nat) :
    BufM Nat := do
  let bs := fs.sb.blockSize.toNat
  let absPos ← (add64 offset written : Res Nat)
  let blockIdx ← (div64 absPos bs : Res Nat)
  let blockOff ← (rem64 absPos bs : Res Nat)
  let block ← Stateful.ofAsking (fs.readLogicalBlock inode blockIdx offsets)
  let block ← block.asSlice
  if block.length ≤ blockOff then
    throw (.err (.badInode "data block shorter than the offset read from it"))
  else
    let take := min (block.length - blockOff) (toRead - written)
    let src ← (slice block blockOff (blockOff + take) : Res Bytes)
    let buf ← (copyInto (← get) written src : Res Bytes)
    set buf
    (add64 written take : Res Nat)

/-- `while written < to_read`. -/
def readLoop (fs : Filesystem) (inode : Inode) (offsets : List Nat) (offset toRead : Nat) :
    (turns written : Nat) → BufM Nat
  | 0, written => if written < toRead then throw .diverge else return written
  | turns + 1, written =>
    if written < toRead then do
      let written ← fs.readChunk inode offsets offset toRead written
      fs.readLoop inode offsets offset toRead turns written
    else return written

/-- `read_file` with the file's block map already built. -/
def readFileWithOffsets (fs : Filesystem) (inode : Inode) (offsets : List Nat) (offset : UInt64) :
    BufM Nat := do
  if ¬ inode.isRegularFile then throw (.err (.badInode "read_file on non-file"))
  else
    let buf ← get
    if inode.fileSize ≤ offset ∨ buf.isEmpty then return 0
    else
      let rest ← (sub64 inode.fileSize.toNat offset.toNat : Res Nat)
      let toRead := min buf.length rest
      fs.readLoop inode offsets offset.toNat toRead toRead 0

/-- Read a regular file from `offset` into the buffer; the number of bytes read. -/
def readFile (fs : Filesystem) (inode : Inode) (offset : UInt64) : BufM Nat :=
  fs.readFileWithOffsets inode (blockOffsets inode) offset

end Filesystem

end Squashfs
