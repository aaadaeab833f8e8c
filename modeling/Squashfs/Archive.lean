import Squashfs.DirGrammar
import Squashfs.Foundation.Forest
import Squashfs.Layout
import Squashfs.Listing
import Squashfs.Resolution
import Squashfs.StoredFile
import Squashfs.StoredTables

/-!
# What an archive stores

What an archive is for: a tree of files, directories, links and devices under names, written once.
The writer is a specification of this development; the reader is `Filesystem`'s (`src/fs.rs`).
`Stores` says that an image holds one node of it, whatever way its writer cut and compressed it: the
inode's record in the inode table, a directory's listing in the directory table, a file's blocks
where its inode says, owners and attributes in their tables.

**`Stores.readInode_eq`**, **`Stores.readDir_eq`** and **`Stores.listXattrs_eq`**: what is stored of
a node is what the reader gives of it.

Out of scope: images whose directories meet again below themselves, which no tree is stored in.
-/

namespace Squashfs

open Foundation

/-! ## The tree -/

/-- What a node is, and what it holds itself. -/
inductive Kind where
  | file (contents : Bytes)
  | dir
  | symlink (target : Bytes)
  | charDev (rdev : UInt32)
  | blockDev (rdev : UInt32)
  | fifo
  | socket
  deriving Repr, DecidableEq

def Kind.fileType : Kind → FileType
  | file _ => .regFile
  | dir => .dir
  | symlink _ => .symlink
  | charDev _ => .charDev
  | blockDev _ => .blockDev
  | fifo => .fifo
  | socket => .socket

/-- The size a node has of itself; a directory has only its listing's. -/
def Kind.size : Kind → Nat
  | file contents => contents.length
  | symlink target => target.length
  | _ => 0

/-- The device a node stands for. -/
def Kind.rdev : Kind → UInt32
  | charDev rdev => rdev
  | blockDev rdev => rdev
  | _ => 0

/-- A node of the tree. -/
structure Node where
  kind : Kind
  permissions : UInt16
  uid : UInt32
  gid : UInt32
  mtime : UInt32
  inodeNumber : UInt32
  nlink : UInt32
  xattrs : List XattrEntry
  deriving Repr, DecidableEq

/-- Whether a node may have entries. -/
def Node.isDir (n : Node) : Bool := n.kind.fileType == .dir

/-- A node and the record that stores it, at a packed reference into the inode table. -/
structure StoredNode where
  node : Node
  inodeRef : UInt64
  header : InodeHeader
  record : InodeRecord

/-- The inode that the record describes. -/
def StoredNode.inode (s : StoredNode) : Inode := s.record.toInode s.header

/-- The header of an inode is its record's. -/
theorem StoredNode.inode_header (s : StoredNode) :
    s.inode.permissions = s.header.permissions ∧ s.inode.uidIdx = s.header.uidIdx ∧
      s.inode.gidIdx = s.header.gidIdx ∧ s.inode.mtime = s.header.mtime ∧
      s.inode.inodeNumber = s.header.inodeNumber := by
  obtain ⟨_, _, header, record⟩ := s
  cases record <;> exact ⟨rfl, rfl, rfl, rfl, rfl⟩

/-- A record of a type without a device has none. -/
theorem InodeRecord.rdev_zero (h : InodeHeader) (r : InodeRecord)
    (hchar : (r.toInode h).fileType ≠ .charDev) (hblock : (r.toInode h).fileType ≠ .blockDev) :
    (r.toInode h).rdev = 0 := by
  cases r with
  | basicBlkdev | extBlkdev => exact absurd rfl hblock
  | basicChrdev | extChrdev => exact absurd rfl hchar
  | _ => rfl

/-- A record has a size when its type has something to measure. -/
theorem InodeRecord.fileSize_eq (h : InodeHeader) (r : InodeRecord)
    (hdir : (r.toInode h).fileType ≠ .dir) (hfile : (r.toInode h).fileType ≠ .regFile) :
    (r.toInode h).fileSize = UInt64.ofNat (r.toInode h).symlinkTarget.length := by
  cases r with
  | basicDir | extDir => exact absurd rfl hdir
  | basicFile | extFile => exact absurd rfl hfile
  | _ => rfl

theorem InodeRecord.symlinkTarget_le {blockSize : Nat} (h : InodeHeader) {r : InodeRecord}
    (hvalid : r.Valid blockSize) : (r.toInode h).symlinkTarget.length ≤ 65536 := by
  cases r with
  | basicSymlink nlink target => exact hvalid
  | extSymlink nlink target xattr => exact hvalid
  | _ => exact Nat.zero_le _

theorem InodeRecord.symlinkTarget_nil (h : InodeHeader) (r : InodeRecord)
    (hlink : (r.toInode h).fileType ≠ .symlink) : (r.toInode h).symlinkTarget = [] := by
  cases r with
  | basicSymlink | extSymlink => exact absurd rfl hlink
  | _ => rfl

/-- Only a directory may have entries. -/
theorem Node.isDir_iff (n : Node) : n.isDir = true ↔ n.kind = .dir := by
  unfold Node.isDir
  cases n.kind <;> simp [Kind.fileType]

/-! ## Streams -/

/-- `w` is stored from byte `inBlock` of the block at `abs` on, in a run of blocks up to `fin`. -/
def StoredStream (codecs : Codecs) (dev : Device) (sb : Superblock) (abs inBlock : Nat) (w : Bytes)
    (fin : Nat) : Prop :=
  ∃ first blocks before after, StoredRun codecs dev sb abs (first :: blocks) fin ∧
    (first :: blocks).flatten = before ++ w ++ after ∧ before.length = inBlock ∧
    before.length ≤ first.length

section Streams

variable {codecs : Codecs} {dev : Device} {sb : Superblock} {comp : Compressor}
  {abs inBlock fin : Nat} {w : Bytes}

/-- A stored stream starts inside the device. -/
theorem StoredStream.abs_lt (h : StoredStream codecs dev sb abs inBlock w fin) :
    abs < wordSize := by
  obtain ⟨first, blocks, before, after, hrun, -⟩ := h
  cases hrun with
  | cons head hne hlen tail =>
    have hread := (safe_readBlockUncached codecs dev sb _).of_eq head.read
    have hsize := dev.size_lt
    omega

theorem StoredStream.streamAt (h : StoredStream codecs dev sb abs inBlock w fin) :
    StreamAt (uncached codecs dev sb comp) abs inBlock w := by
  obtain ⟨first, blocks, before, after, hrun, hstream, rfl, hbefore⟩ := h
  exact streamAt_of_stored hrun hstream hbefore

/-- A stream inside one block. -/
theorem StoredStream.one {block : Bytes} (h : StoredBlock codecs dev sb abs block fin)
    (hne : block ≠ []) (hle : block.length ≤ METADATA_SIZE) (hin : inBlock ≤ block.length)
    (hw : (block.drop inBlock).take w.length = w) :
    StoredStream codecs dev sb abs inBlock w fin := by
  refine ⟨block, [], block.take inBlock, (block.drop inBlock).drop w.length,
    .cons h hne hle (.nil fin), ?_, List.length_take_of_le hin,
    List.length_take_le' _ _⟩
  have hrest := List.take_append_drop w.length (block.drop inBlock)
  rw [hw] at hrest
  rw [List.flatten_singleton, List.append_assoc, hrest, List.take_append_drop]

/-- Stored blocks lie before the end of their run. -/
theorem StoredRun.le {blocks : List Bytes} (h : StoredRun codecs dev sb abs blocks fin) :
    abs ≤ fin := by
  induction h with
  | nil => exact Nat.le_refl _
  | cons head _ _ _ ih =>
    have hread := (safe_readBlockUncached codecs dev sb _).of_eq head.read
    omega

/-- Stored blocks that end before a limit are the blocks ahead of a cursor under it. -/
theorem StoredRun.segments_below {blocks : List Bytes} {stop : Nat} {why : String}
    (h : StoredRun codecs dev sb abs blocks fin) (hstop : fin ≤ stop) :
    ∃ segs, Segments (uncached codecs dev sb comp) (some (stop, why)) abs segs fin ∧
      bytesOf segs = blocks.flatten := by
  induction h with
  | nil abs => exact ⟨[], .nil abs, rfl⟩
  | cons head hne _ tail ih =>
    obtain ⟨segs, hs, hbytes⟩ := ih hstop
    have hread := (safe_readBlockUncached codecs dev sb _).of_eq head.read
    have hle := tail.le
    refine ⟨_, .cons ?_ head.read hne hs, ?_⟩
    · intro stop' why' hlimit
      cases hlimit
      omega
    · rw [bytesOf_cons, hbytes, List.flatten_cons]

end Streams

namespace Filesystem

/-! ## What is stored -/

/-- An entry of a listing names an entry of the tree. -/
def Names (d : DirEntry) (e : Bytes × StoredNode) : Prop :=
  d.name = e.1 ∧ d.inodeRef = e.2.inodeRef ∧ d.inodeNumber = e.2.node.inodeNumber ∧
    FileType.fromTypeId d.typeId = e.2.node.kind.fileType

/-- A directory's entries are stored as its listing, in groups and before the end of the directory
table. -/
structure StoredListing (codecs : Codecs) (fs : Filesystem) (inode : Inode)
    (below : Forest Bytes StoredNode) : Prop where
  listing : ∃ groups : List StoredGroup,
    List.Forall₂ Names (groups.flatMap StoredGroup.dirEntries) below.entries ∧
    inode.dirListingLen = (groups.map StoredGroup.encode).flatten.length ∧
    (groups ≠ [] → ∃ fin ≤ fs.dirTableEnd, StoredStream codecs fs.dev fs.sb
      (fs.sb.directoryTableStart.toNat + inode.dirStartBlock.toNat) inode.dirBlockOffset.toNat
      (groups.map StoredGroup.encode).flatten fin)

/-- What a node holds is stored where its inode says, and only a directory has entries. -/
def StoredKind (codecs : Codecs) (fs : Filesystem) (inode : Inode)
    (below : Forest Bytes StoredNode) : Kind → Prop
  | .file contents => fs.StoredFile codecs inode contents ∧ below = .nil
  | .dir => fs.StoredListing codecs inode below
  | .symlink target => inode.symlinkTarget = target ∧ below = .nil
  | .charDev rdev => inode.rdev = rdev ∧ below = .nil
  | .blockDev rdev => inode.rdev = rdev ∧ below = .nil
  | .fifo => below = .nil
  | .socket => below = .nil

/-- An inode's attributes are stored as a set, when the image has any and the inode names one. -/
def StoredAttributes (codecs : Codecs) (fs : Filesystem) (inode : Inode)
    (xattrs : List XattrEntry) : Prop :=
  match fs.xattrIds with
  | none => xattrs = []
  | some table =>
    if inode.hasXattrs then
      Xattr.Spelled (Xattr.StoredAtRef codecs fs.dev fs.sb table) table inode.xattrIndex xattrs
    else xattrs = []

/-- A node is stored in an image. -/
structure Stores (codecs : Codecs) (fs : Filesystem) (s : StoredNode)
    (below : Forest Bytes StoredNode) : Prop where
  valid : s.record.Valid fs.sb.blockSize.toNat
  record : ∃ fin, StoredStream codecs fs.dev fs.sb
    (fs.sb.inodeTableStart.toNat + (MetadataRef.fromPacked s.inodeRef).blockOffset.toNat)
    (MetadataRef.fromPacked s.inodeRef).inBlock.toNat (s.record.encode s.header) fin
  permissions : s.header.permissions = s.node.permissions
  uid : fs.idTable[s.header.uidIdx.toNat]? = some s.node.uid
  gid : fs.idTable[s.header.gidIdx.toNat]? = some s.node.gid
  mtime : s.header.mtime = s.node.mtime
  inodeNumber : s.header.inodeNumber = s.node.inodeNumber
  nlink : s.inode.nlink = s.node.nlink
  xattrs : fs.StoredAttributes codecs s.inode s.node.xattrs
  type : s.inode.fileType = s.node.kind.fileType
  kind : fs.StoredKind codecs s.inode below s.node.kind

/-! ## What is read -/

section Read

variable {codecs : Codecs} {fs : Filesystem} {s : StoredNode} {below : Forest Bytes StoredNode}

/-- **The record of a stored node is read back** through its reference. -/
theorem Stores.readInode_eq (h : fs.Stores codecs s below) :
    Asking.exec (fs.answers codecs) (fs.readInode s.inodeRef) = .ok s.inode := by
  obtain ⟨fin, hstream⟩ := h.record
  unfold readInode
  refine (Inode.exec_read (fs.tame_answers codecs) fs.sb s.inodeRef _).mpr
    ⟨s.header, s.record, h.valid, rfl, ?_⟩
  unfold MetadataRef.startAbs
  rw [saturatingAdd_eq hstream.abs_lt]
  exact hstream.streamAt

theorem Stores.geometry (h : fs.Stores codecs s below) : s.inode.Geometry fs.sb :=
  s.record.geometry s.header h.valid

theorem Stores.isDir_eq (h : fs.Stores codecs s below) : s.inode.isDir = s.node.isDir := by
  unfold Inode.isDir Node.isDir
  rw [h.type]

/-- A stored listing is read. -/
theorem StoredListing.readListing_eq (hgeo : s.inode.Geometry fs.sb) (hdir : s.inode.isDir = true)
    {w : Bytes} {fin : Nat} (hfin : fin ≤ fs.dirTableEnd) (hlen : s.inode.dirListingLen = w.length)
    (h : StoredStream codecs fs.dev fs.sb
      (fs.sb.directoryTableStart.toNat + s.inode.dirStartBlock.toNat) s.inode.dirBlockOffset.toNat
      w fin) :
    Asking.exec (fs.answers codecs) (fs.readListing s.inode) = .ok w := by
  have hle : s.inode.dirListingLen ≤ maxRead :=
    Nat.le_trans (Nat.sub_le _ _) (Nat.le_of_lt (hgeo.listing hdir))
  have hstart : fs.listingStart s.inode =
      fs.sb.directoryTableStart.toNat + s.inode.dirStartBlock.toNat := by
    unfold listingStart MetadataRef.startAbs
    rw [UInt32.toNat_toUInt64, saturatingAdd_eq h.abs_lt]
  obtain ⟨first, blocks, before, after, hrun, hstream, hplace, hbefore⟩ := h
  cases hrun with
  | cons head hne hblen tail =>
    obtain ⟨segs, hs, hbytes⟩ :=
      @StoredRun.segments_below _ _ _ fs.comp _ _ _ _ PAST_TABLE_END tail hfin
    refine (readListing_eq_ok (fs.tame_answers codecs) hle).mpr ⟨first, _, segs, fin, ?_, ?_, hs,
      hlen.symm, after, ?_⟩
    · rw [hstart]
      exact head.read
    · rw [← hplace]
      exact hbefore
    · rw [hbytes, ← hplace, ← List.drop_append_of_le_length hbefore, ← List.flatten_cons, hstream,
        List.append_assoc, List.drop_left]

/-- **A stored directory lists its entries**, in order. -/
theorem Stores.readDir_eq (h : fs.Stores codecs s below) (hdir : s.node.kind = .dir) :
    ∃ entries, Asking.exec (fs.answers codecs) (fs.readDir s.inode) = .ok entries ∧
      List.Forall₂ Names entries below.entries := by
  have hkind := h.kind
  rw [hdir] at hkind
  have hisDir : s.inode.isDir = true := by
    rw [h.isDir_eq, Node.isDir, hdir]
    rfl
  obtain ⟨groups, hnames, hlen, hstored⟩ := StoredListing.listing hkind
  refine ⟨_, ?_, hnames⟩
  by_cases hnil : groups = []
  · rw [hnil] at hlen ⊢
    unfold readDir
    have hzero : s.inode.dirListingLen = 0 := hlen
    rw [Asking.exec_ite, if_neg (not_not_intro hisDir), Asking.exec_ite, if_pos hzero]
    rfl
  · obtain ⟨fin, hfin, hstream⟩ := hstored hnil
    have hne : s.inode.dirListingLen ≠ 0 := by
      obtain ⟨g, gs, rfl⟩ := List.exists_cons_of_ne_nil hnil
      have hpos := List.length_pos_of_ne_nil g.encode_ne_nil
      rw [hlen, List.map_cons, List.flatten_cons, List.length_append]
      omega
    have hsmall : (groups.map StoredGroup.encode).flatten.length ≤ isizeMax := by
      have hlt := h.geometry.listing hisDir
      have hle : s.inode.dirListingLen ≤ s.inode.fileSize.toNat := Nat.sub_le _ _
      unfold isizeMax
      omega
    rw [exec_readDir hisDir hne, StoredListing.readListing_eq h.geometry hisDir hfin hlen hstream,
      ok_bind]
    refine (parseRuns_eq_ok hsmall (Nat.zero_le _) (Nat.le_refl _)).mpr ⟨groups, ?_, ?_⟩
    · rw [List.drop_zero]
    · rw [List.nil_append]

/-- **The attributes of a stored node are read back.** -/
theorem Stores.listXattrs_eq (h : fs.Stores codecs s below) :
    Asking.exec (fs.answers codecs) (fs.listXattrs s.inode) = .ok s.node.xattrs := by
  have hstored := h.xattrs
  unfold StoredAttributes at hstored
  unfold listXattrs
  cases htable : fs.xattrIds with
  | none =>
    rw [htable] at hstored
    rw [show s.node.xattrs = [] from hstored]
    rfl
  | some table =>
    rw [htable] at hstored
    dsimp only at hstored ⊢
    rw [Asking.exec_ite]
    by_cases hhas : s.inode.hasXattrs = true
    · rw [if_pos hhas] at hstored
      rw [if_neg (not_not_intro hhas)]
      obtain ⟨id, hid, hcount, hlen, hsum, w, hw, hwords⟩ := hstored
      refine (Xattr.exec_readSet (fs.tame_answers codecs) table _ _).mpr
        ⟨id, hid, hcount, hlen, hsum, w, hw.stream, hwords.mono fun w e hpair => ?_⟩
      exact hpair.mono fun r w hr => hr.stream
    · rw [if_neg hhas] at hstored
      rw [if_pos hhas, hstored]
      rfl

end Read

end Filesystem

end Squashfs
