import Squashfs.File
import Squashfs.Foundation.Usize
import Squashfs.Xattr

/-!
# The readers on targets of either width

Model of the readers of files and tables (`src/fs.rs:606-741`, `src/table.rs:112-338`,
`src/xattr.rs:192-235`) as a release build runs them: words of the disk are 64 bits wide, `usize` is
as wide as the target's pointers (`Width`), and arithmetic on both wraps. Metadata blocks are read
by a parameter, since what is said here does not depend on how.

On a 64-bit target these are the readers of the rest of the development (**`readFile_w64`**,
**`readFragmentTable_w64`**), and a file read on a 32-bit one is the same read as far as what is
left of the file fits (**`readFile_eq`**).

**`counts_exact_iff`** says exactly when the counts keep their values. A read of a file asks for
what there is unless 2³² bytes or more are left of it and the buffer is longer than the low 32 bits
of that: a file of 2³² bytes reads as empty (**`huge_file_reads_nothing`**). A table's bytes are
counted right, or the table is refused, unless they are 2³² or more and the image holds a table of
as many as are left of that.

Out of scope: allocation. A vector may be asked for any capacity here, where a 32-bit target panics
on one past `isize::MAX` before the slices below do.
-/

namespace Squashfs

open Foundation

namespace Release

open Filesystem

/-! ## Reading a file -/

/-- The full data block number `blockIdx`. -/
def readFullBlock (w : Width) (fs : Filesystem) (inode : Inode) (blockIdx : Nat)
    (offsets : List Nat) : Prog LogicalBlock := do
  let bs := fs.sb.blockSize.toUInt64
  let logicalLen := w.narrow (min bs.toNat (inode.fileSize - UInt64.ofNat blockIdx * bs).toNat)
  let sizeWord ← (index inode.blockSizes blockIdx : Res UInt32)
  if (dataOnDiskSize sizeWord).toNat = 0 then
    return ⟨List.replicate logicalLen 0, 0, logicalLen⟩
  else
    let absOff ← (index offsets blockIdx : Res Nat)
    let block ← readDataBlock absOff sizeWord logicalLen
    if block.length ≠ logicalLen then
      throw (.err (.badInode "data block decoded to the wrong length"))
    else return ⟨block, 0, logicalLen⟩

/-- The tail of a file, in its fragment block. -/
def readFragmentTail (w : Width) (fs : Filesystem) (inode : Inode) : Prog LogicalBlock := do
  let bs := fs.sb.blockSize.toUInt64
  let frag ← okOr (.badInode "fragment index out of range")
    fs.fragments[w.narrow inode.fragmentIndex.toNat]?
  let fragBlock ← readDataBlock frag.start.toNat frag.size (w.narrow fs.sb.blockSize.toNat)
  let tailLen :=
    w.narrow (inode.fileSize - UInt64.ofNat inode.blockSizes.length * bs).toNat
  let start := w.narrow inode.fragmentOffset.toNat
  let stop ← okOr (.badInode "fragment offset overflow") (w.checkedAdd start tailLen)
  if fragBlock.length < stop then
    throw (.err (.badInode "fragment tail past fragment block end"))
  else return ⟨fragBlock, start, stop⟩

/-- One logical block: a full data block, or the tail fragment after them. -/
def readLogicalBlock (w : Width) (fs : Filesystem) (inode : Inode) (blockIdx : Nat)
    (offsets : List Nat) : Prog LogicalBlock :=
  if blockIdx < inode.blockSizes.length then readFullBlock w fs inode blockIdx offsets
  else if inode.hasFragment then readFragmentTail w fs inode
  else throw (.err .outOfRange)

/-- One turn of the read loop. -/
def readChunk (w : Width) (fs : Filesystem) (inode : Inode) (offsets : List Nat)
    (offset : UInt64) (toRead written : Nat) : BufM Nat := do
  let bs := fs.sb.blockSize.toUInt64
  let absPos := offset + UInt64.ofNat written
  let blockIdx := w.narrow (absPos / bs).toNat
  let blockOff := w.narrow (absPos % bs).toNat
  let block ← Stateful.ofAsking (readLogicalBlock w fs inode blockIdx offsets)
  let block ← block.asSlice
  if block.length ≤ blockOff then
    throw (.err (.badInode "data block shorter than the offset read from it"))
  else
    let take := min (block.length - blockOff) (toRead - written)
    let src ← (slice block blockOff (w.narrow (blockOff + take)) : Res Bytes)
    let buf ← (copyInto (← get) written src : Res Bytes)
    set buf
    return w.narrow (written + take)

/-- `while written < to_read`. -/
def readLoop (w : Width) (fs : Filesystem) (inode : Inode) (offsets : List Nat)
    (offset : UInt64) (toRead : Nat) : (turns written : Nat) → BufM Nat
  | 0, written => if written < toRead then throw .diverge else return written
  | turns + 1, written =>
    if written < toRead then do
      let written ← readChunk w fs inode offsets offset toRead written
      readLoop w fs inode offsets offset toRead turns written
    else return written

/-- The bytes a read past its first checks sets out to copy. -/
def toRead (w : Width) (inode : Inode) (offset : UInt64) (buf : Bytes) : Nat :=
  min buf.length (w.narrow (inode.fileSize - offset).toNat)

/-- `read_file` with the file's block map already built. -/
def readFileWithOffsets (w : Width) (fs : Filesystem) (inode : Inode) (offsets : List Nat)
    (offset : UInt64) : BufM Nat := do
  if ¬ inode.isRegularFile then throw (.err (.badInode "read_file on non-file"))
  else
    let buf ← get
    if inode.fileSize ≤ offset ∨ buf.isEmpty then return 0
    else
      let toRead := toRead w inode offset buf
      readLoop w fs inode offsets offset toRead toRead 0

/-- Read a regular file from `offset` into the buffer. -/
def readFile (w : Width) (fs : Filesystem) (inode : Inode) (offset : UInt64) : BufM Nat :=
  readFileWithOffsets w fs inode (blockOffsets inode) offset

/-! ### As on a wide target -/

section Read

variable {f : ∀ q, Reply q} {fs : Filesystem} {inode : Inode} {w : Width} {offset : UInt64}
  {buf : Bytes}

/-- What is left of a file behind its first `i` blocks. -/
theorem toNat_rest {i : Nat} (h : i * fs.sb.blockSize.toNat ≤ inode.fileSize.toNat) :
    (inode.fileSize - UInt64.ofNat i * fs.sb.blockSize.toUInt64).toNat =
      inode.fileSize.toNat - i * fs.sb.blockSize.toNat := by
  have hsize := inode.fileSize.toNat_lt
  have hbs := fs.sb.blockSize_pos
  have hi : i < 2 ^ 64 := by
    have := Nat.le_mul_of_pos_right i hbs
    omega
  have hmul : (UInt64.ofNat i * fs.sb.blockSize.toUInt64).toNat = i * fs.sb.blockSize.toNat := by
    rw [UInt64.toNat_mul, UInt64.toNat_ofNat', UInt32.toNat_toUInt64, Nat.mod_eq_of_lt hi]
    exact Nat.mod_eq_of_lt (by omega)
  rw [UInt64.toNat_sub_of_le, hmul]
  rw [UInt64.le_iff_toNat_le, hmul]
  exact h

theorem blockLen_lt_size (fs : Filesystem) (inode : Inode) (i : Nat) (w : Width) :
    fs.blockLen inode i < w.size :=
  Nat.lt_of_le_of_lt ((Nat.min_le_left _ _).trans fs.sb.blockSize_le)
    (Nat.lt_of_lt_of_le (by decide) w.le_size)

theorem readFullBlock_eq (hgeo : inode.Geometry fs.sb) (hfile : inode.isRegularFile = true)
    {i : Nat} (hi : i < inode.blockSizes.length) :
    Asking.exec f (readFullBlock w fs inode i (blockOffsets inode)) =
      Asking.exec f (fs.readFullBlock inode i (blockOffsets inode)) := by
  have hlen : w.narrow (min fs.sb.blockSize.toUInt64.toNat
      (inode.fileSize - UInt64.ofNat i * fs.sb.blockSize.toUInt64).toNat) = fs.blockLen inode i := by
    rw [toNat_rest (block_inside hgeo hfile hi), UInt32.toNat_toUInt64]
    exact Width.narrow_of_lt (blockLen_lt_size fs inode i w)
  rw [exec_readFullBlock hgeo hfile hi]
  unfold readFullBlock
  simp only [Asking.exec_bind, Asking.exec_lift, Asking.exec_ite, exec_readDataBlock, hlen]
  rw [index_ok hi, ok_bind, index_blockOffsets hi, ok_bind]
  rfl

/-- The end of the tail is counted in `usize`, which a 32-bit offset can leave. -/
def TailFits (w : Width) (fs : Filesystem) (inode : Inode) : Prop :=
  inode.fragmentOffset.toNat + fs.sb.blockSize.toNat ≤ w.size

theorem readFragmentTail_eq (hgeo : inode.Geometry fs.sb) (hfile : inode.isRegularFile = true)
    (hfrag : inode.fragmentIndex ≠ SQUASHFS_INVALID_FRAG) (hfits : TailFits w fs inode) :
    Asking.exec f (readFragmentTail w fs inode) = Asking.exec f (fs.readFragmentTail inode) := by
  have hword : ∀ x : UInt32, w.narrow x.toNat = x.toNat := fun x =>
    Width.narrow_of_lt (Nat.lt_of_lt_of_le x.toNat_lt w.le_size)
  have hcount := tail_of_fragment hgeo hfile hfrag
  have hle := Nat.div_mul_le_self inode.fileSize.toNat fs.sb.blockSize.toNat
  have hmod := Nat.mod_lt inode.fileSize.toNat fs.sb.blockSize_pos
  unfold TailFits at hfits
  have htail : w.narrow (inode.fileSize - UInt64.ofNat inode.blockSizes.length *
      fs.sb.blockSize.toUInt64).toNat = inode.fileSize.toNat % fs.sb.blockSize.toNat := by
    rw [hcount, toNat_rest hle, ← Nat.mod_eq_sub_div_mul]
    exact Width.narrow_of_lt (by omega)
  rw [exec_readFragmentTail hgeo hfile hfrag]
  unfold readFragmentTail
  simp only [Asking.exec_bind, Asking.exec_lift, Asking.exec_ite, exec_readDataBlock, htail, hword]
  refine bind_congr fun frag => bind_congr fun block => ?_
  rw [Width.checkedAdd_of_lt (by omega)]
  rfl

/-- **A logical block of the file is the same block.** -/
theorem readLogicalBlock_eq (hgeo : inode.Geometry fs.sb) (hfile : inode.isRegularFile = true)
    (hfits : TailFits w fs inode) (i : Nat) :
    Asking.exec f (readLogicalBlock w fs inode i (blockOffsets inode)) =
      Asking.exec f (fs.readLogicalBlock inode i (blockOffsets inode)) := by
  unfold readLogicalBlock Filesystem.readLogicalBlock
  by_cases hi : i < inode.blockSizes.length
  · rw [if_pos hi, if_pos hi]
    exact readFullBlock_eq hgeo hfile hi
  · rw [if_neg hi, if_neg hi]
    by_cases hfrag : inode.hasFragment = true
    · rw [if_pos hfrag, if_pos hfrag]
      exact readFragmentTail_eq hgeo hfile ((hasFragment_iff hfile).mp hfrag) hfits
    · rw [if_neg hfrag, if_neg hfrag]

/-- **One turn of the loop is the same turn**, as far as what is to be read fits. -/
theorem readChunk_eq (hf : Tame f) (hgeo : inode.Geometry fs.sb)
    (hfile : inode.isRegularFile = true) (hfits : TailFits w fs inode) {toRead written : Nat}
    (hw : written < toRead) (hend : offset.toNat + toRead ≤ inode.fileSize.toNat)
    (hsmall : toRead < w.size) :
    Stateful.exec f (readChunk w fs inode (blockOffsets inode) offset toRead written) buf =
      Stateful.exec f (fs.readChunk inode (blockOffsets inode) offset.toNat toRead written)
        buf := by
  have hsize := inode.fileSize.toNat_lt
  have hbs := fs.sb.blockSize_pos
  have hble := fs.sb.blockSize_le
  have hword := w.le_size
  have hp : offset.toNat + written < inode.fileSize.toNat := by omega
  have hin := fs.block_start_lt hp
  have hpos : (offset + UInt64.ofNat written).toNat = offset.toNat + written := by
    rw [UInt64.toNat_add, UInt64.toNat_ofNat', Nat.mod_eq_of_lt (by omega : written < 2 ^ 64)]
    exact Nat.mod_eq_of_lt (by omega)
  have hidx : w.narrow ((offset + UInt64.ofNat written) / fs.sb.blockSize.toUInt64).toNat =
      (offset.toNat + written) / fs.sb.blockSize.toNat := by
    rw [UInt64.toNat_div, UInt32.toNat_toUInt64, hpos]
    have hblock := index_le_of_inside hgeo hfile hin
    have hcount : inode.blockSizes.length ≤ 2 ^ 24 := hgeo.small
    exact Width.narrow_of_lt (by omega)
  have hoff : w.narrow ((offset + UInt64.ofNat written) % fs.sb.blockSize.toUInt64).toNat =
      (offset.toNat + written) % fs.sb.blockSize.toNat := by
    rw [UInt64.toNat_mod, UInt32.toNat_toUInt64, hpos]
    have hmod := Nat.mod_lt (offset.toNat + written) hbs
    exact Width.narrow_of_lt (by omega)
  unfold readChunk Filesystem.readChunk
  dsimp only
  rw [Stateful.exec_lift_bind (add64_ok (by unfold wordSize; omega)),
    Stateful.exec_lift_bind (div64_ok (Nat.pos_iff_ne_zero.mp hbs)),
    Stateful.exec_lift_bind (rem64_ok (Nat.pos_iff_ne_zero.mp hbs)), hidx, hoff]
  rcases hb : fs.logicalBlock f inode ((offset.toNat + written) / fs.sb.blockSize.toNat) with _ | b
  · obtain ⟨e, he⟩ := readLogicalBlock_none hf hgeo hfile hb
    rw [Stateful.exec_bind, Stateful.exec_bind, Stateful.exec_ofAsking, Stateful.exec_ofAsking,
      readLogicalBlock_eq hgeo hfile hfits, he]
  · obtain ⟨hlen, block, hread, hslice⟩ := readLogicalBlock_some hgeo hfile hin hb
    have hlt := blockLen_lt_size fs inode ((offset.toNat + written) / fs.sb.blockSize.toNat) w
    rw [Stateful.exec_ofAsking_bind hread,
      Stateful.exec_ofAsking_bind ((readLogicalBlock_eq hgeo hfile hfits _).trans hread),
      Stateful.exec_lift_bind hslice, Stateful.exec_lift_bind hslice]
    split
    · rfl
    · rename_i hin
      rw [Width.narrow_of_lt (by omega), Width.narrow_of_lt (by omega),
        add64_ok (by unfold wordSize; omega)]
      rfl

/-- **The loop is the same loop**, as far as what is to be read fits. -/
theorem readLoop_eq (hf : Tame f) (hgeo : inode.Geometry fs.sb)
    (hfile : inode.isRegularFile = true) (hfits : TailFits w fs inode) {toRead : Nat}
    (hend : offset.toNat + toRead ≤ inode.fileSize.toNat) (hsmall : toRead < w.size)
    (turns written : Nat) :
    Stateful.exec f (readLoop w fs inode (blockOffsets inode) offset toRead turns written) buf =
      Stateful.exec f (fs.readLoop inode (blockOffsets inode) offset.toNat toRead turns written)
        buf := by
  induction turns generalizing written buf with
  | zero => rfl
  | succ turns ih =>
    unfold readLoop Filesystem.readLoop
    by_cases hw : written < toRead
    · rw [if_pos hw, if_pos hw, Stateful.exec_bind, Stateful.exec_bind,
        readChunk_eq hf hgeo hfile hfits hw hend hsmall]
      split
      · exact ih _
      · rfl
    · rw [if_neg hw, if_neg hw]

/-- **A read is the same read** on a target of either width, as far as what is left of the file
fits in `usize` or what is kept of that number reaches the buffer's length. -/
theorem readFile_eq (hf : Tame f) (hgeo : inode.Geometry fs.sb)
    (hfile : inode.isRegularFile = true) (hfits : TailFits w fs inode)
    (h : inode.fileSize.toNat - offset.toNat < w.size ∨
      buf.length ≤ w.narrow (inode.fileSize.toNat - offset.toNat)) :
    Stateful.exec f (readFile w fs inode offset) buf =
      Stateful.exec f (fs.readFile inode offset) buf := by
  unfold readFile readFileWithOffsets Filesystem.readFile Filesystem.readFileWithOffsets
  rw [if_neg (not_not_intro hfile), if_neg (not_not_intro hfile), Stateful.exec_get_bind,
    Stateful.exec_get_bind]
  split
  · rfl
  · rename_i hinside
    rw [not_or, UInt64.not_le] at hinside
    have hle := UInt64.le_iff_toNat_le.mp (UInt64.le_of_lt hinside.1)
    have hread : toRead w inode offset buf =
        min buf.length (inode.fileSize.toNat - offset.toNat) := by
      unfold toRead
      rw [UInt64.toNat_sub_of_le _ _ (UInt64.le_of_lt hinside.1)]
      exact Width.min_narrow_eq_iff.mpr h
    have hsmall : toRead w inode offset buf < w.size :=
      Nat.lt_of_le_of_lt (Nat.min_le_right _ _) (w.narrow_lt _)
    rw [hread] at hsmall
    rw [Stateful.exec_lift_bind (sub64_ok hle)]
    dsimp only
    rw [hread]
    exact readLoop_eq hf hgeo hfile hfits (by omega) hsmall _ _

/-- **On a 64-bit target** a read is the read of the rest of the development. -/
theorem readFile_w64 (hf : Tame f) (hgeo : inode.Geometry fs.sb)
    (hfile : inode.isRegularFile = true) :
    Stateful.exec f (readFile .w64 fs inode offset) buf =
      Stateful.exec f (fs.readFile inode offset) buf := by
  have hsize := inode.fileSize.toNat_lt
  have hoff := inode.fragmentOffset.toNat_lt
  have hbs := fs.sb.blockSize_le
  have hword : Width.size .w64 = 2 ^ 64 := rfl
  refine readFile_eq hf hgeo hfile ?_ (.inl (by omega))
  unfold TailFits
  omega

/-! ### What a read asks for -/

/-- The loop gives a count only when it has copied what it set out to. -/
theorem readLoop_count {toRead turns written n : Nat} {buf' : Bytes}
    (h : Stateful.exec f (readLoop w fs inode (blockOffsets inode) offset toRead turns written) buf =
      (.ok n, buf')) : toRead ≤ n := by
  induction turns generalizing written buf with
  | zero =>
    unfold readLoop at h
    split at h
    · cases h
    · cases h
      omega
  | succ turns ih =>
    unfold readLoop at h
    split at h
    · obtain ⟨written', buf₁, -, h⟩ := Stateful.exec_bind_eq_ok.mp h
      exact ih h
    · cases h
      omega

/-- A read inside the file gives a count only when it has copied what it set out to. -/
theorem count_of_readFile (hlt : offset < inode.fileSize) (hbuf : buf ≠ []) {n : Nat} {buf' : Bytes}
    (h : Stateful.exec f (readFile w fs inode offset) buf = (.ok n, buf')) :
    toRead w inode offset buf ≤ n := by
  unfold readFile readFileWithOffsets at h
  by_cases hfile : inode.isRegularFile = true
  · have hguard : ¬ (inode.fileSize ≤ offset ∨ buf.isEmpty = true) := by
      rw [not_or, UInt64.not_le, List.isEmpty_iff]
      exact ⟨hlt, hbuf⟩
    rw [if_neg (not_not_intro hfile), Stateful.exec_get_bind, if_neg hguard] at h
    exact readLoop_count h
  · rw [if_pos hfile] at h
    cases h

/-- The bytes a read sets out to copy: none when its first checks turn it away. -/
def setsOut (w : Width) (inode : Inode) (offset : UInt64) (buf : Bytes) : Nat :=
  if inode.fileSize ≤ offset ∨ buf = [] then 0 else toRead w inode offset buf

/-- A read sets out to copy what there is and fits, and gives no bytes only into no buffer or at
the end of the file. -/
def ReadsAll (w : Width) (f : ∀ q, Reply q) (fs : Filesystem) (inode : Inode) (offset : UInt64)
    (buf : Bytes) : Prop :=
  setsOut w inode offset buf = min buf.length (inode.fileSize.toNat - offset.toNat) ∧
    ∀ buf', Stateful.exec f (readFile w fs inode offset) buf = (.ok 0, buf') →
      buf = [] ∨ inode.fileSize ≤ offset

/-- **A read copies what there is exactly when** what is left of the file fits in `usize`, or what
is kept of that number reaches the buffer's length. -/
theorem readsAll_iff (w : Width) (f : ∀ q, Reply q) (fs : Filesystem) (inode : Inode)
    (offset : UInt64) (buf : Bytes) :
    ReadsAll w f fs inode offset buf ↔
      inode.fileSize.toNat - offset.toNat < w.size ∨
        buf.length ≤ w.narrow (inode.fileSize.toNat - offset.toNat) := by
  unfold ReadsAll setsOut
  by_cases hnothing : inode.fileSize ≤ offset ∨ buf = []
  · rw [if_pos hnothing]
    refine iff_of_true ⟨?_, fun _ _ => hnothing.symm⟩ ?_
    · rcases hnothing with hle | rfl
      · rw [Nat.sub_eq_zero_of_le (UInt64.le_iff_toNat_le.mp hle), Nat.min_zero]
      · rw [List.length_nil, Nat.zero_min]
    · rcases hnothing with hle | rfl
      · rw [Nat.sub_eq_zero_of_le (UInt64.le_iff_toNat_le.mp hle)]
        exact .inl (Nat.lt_of_lt_of_le (by decide) w.le_size)
      · exact .inr (Nat.zero_le _)
  · rw [if_neg hnothing]
    rw [not_or, UInt64.not_le] at hnothing
    obtain ⟨hlt, hbuf⟩ := hnothing
    have hrest : toRead w inode offset buf =
        min buf.length (w.narrow (inode.fileSize.toNat - offset.toNat)) := by
      unfold toRead
      rw [UInt64.toNat_sub_of_le _ _ (UInt64.le_of_lt hlt)]
    rw [← Width.min_narrow_eq_iff, ← hrest]
    refine and_iff_left_of_imp fun hread buf' h => ?_
    have hpos : 0 < toRead w inode offset buf := by
      have hlt := UInt64.lt_iff_toNat_lt.mp hlt
      have hbuf := List.length_pos_of_ne_nil hbuf
      omega
    exact absurd (count_of_readFile hlt hbuf h) (by omega)

end Read

/-! ## Reading a table -/

/-- The pointers of an indirect table. -/
def readPointers (w : Width) (dev : Device) (sb : Superblock) (overflow short : String)
    (tableStart : UInt64) (nBlocks : Nat) : Res Bytes := do
  let arrayBytes ← okOr (.badMetadata overflow) (w.checkedMul nBlocks 8)
  let room := min sb.bytesUsed.toNat dev.sizeBytes - tableStart.toNat
  if room < arrayBytes then fails (.badMetadata short)
  else dev.read tableStart.toNat arrayBytes

/-- `u64::from_le_bytes(ptr_bytes[i * 8..i * 8 + 8])`. -/
def pointerAt (w : Width) (ptrBytes : Bytes) (i : Nat) : Res UInt64 :=
  w.u64At ptrBytes (w.narrow (i * 8))

/-- Read and join the metadata blocks of an indirect table of `totalBytes` bytes. -/
def readIndirectTable (w : Width) (readBlock : UInt64 → Res Bytes) (dev : Device)
    (sb : Superblock) (tableStart : UInt64) (totalBytes : Nat) : Res Bytes := do
  if totalBytes = 0 then return []
  else
    let nBlocks ← divCeil totalBytes METADATA_SIZE
    let ptrBytes ← readPointers w dev sb "indirect table pointer array overflows"
      "indirect table declares more blocks than it has room for" tableStart nBlocks
    let blocks ← tabulate (fun i => do readBlock (← pointerAt w ptrBytes i)) nBlocks
    let out := blocks.flatten
    if out.length < totalBytes then fails (.badMetadata "indirect table shorter than expected")
    else return out

/-- The uid/gid table. -/
def readIdTable (w : Width) (readBlock : UInt64 → Res Bytes) (dev : Device) (sb : Superblock) :
    Res (List UInt32) := do
  let n := w.narrow sb.idCount.toNat
  if n = 0 then return []
  else
    let bytes ← readIndirectTable w readBlock dev sb sb.idTableStart (w.narrow (n * 4))
    tabulate (fun i => w.u32At bytes (w.narrow (i * 4))) n

/-- The fragment table. -/
def readFragmentTable (w : Width) (readBlock : UInt64 → Res Bytes) (dev : Device)
    (sb : Superblock) : Res (List FragmentEntry) := do
  let n := w.narrow sb.fragmentEntryCount.toNat
  if n = 0 then return []
  else
    let bytes ← readIndirectTable w readBlock dev sb sb.fragmentTableStart (w.narrow (n * 16))
    tabulate (fun i => do
      let o := w.narrow (i * 16)
      let start ← w.u64At bytes o
      let size ← w.u32At bytes (w.narrow (o + 8))
      return ⟨start, size⟩) n

/-- The export table's pointers, or nothing for an image built without one. -/
def readExportTable (w : Width) (dev : Device) (sb : Superblock) : Res (Option ExportTable) := do
  let start := sb.exportTableStart
  if start = NO_TABLE then return none
  else if sb.inodeCount = 0 then return some ⟨[], 0⟩
  else
    let totalBytes := w.narrow (w.narrow sb.inodeCount.toNat * EXPORT_ENTRY_SIZE)
    let nBlocks ← divCeil totalBytes METADATA_SIZE
    let ptrBytes ← readPointers w dev sb "export table pointer array overflows"
      "export table declares more blocks than it has room for" start nBlocks
    let blockStarts ← tabulate (pointerAt w ptrBytes) nBlocks
    return some ⟨blockStarts, sb.inodeCount⟩

/-- Read the xattr id table, or nothing when the image has no attributes. -/
def readXattrIdTable (w : Width) (readBlock : UInt64 → Res Bytes) (dev : Device)
    (sb : Superblock) : Res (Option XattrIdTable) := do
  let headerAt := sb.xattrIdTableStart
  if headerAt = NO_TABLE then return none
  else
    let header ← dev.read headerAt.toNat ID_TABLE_HEADER_SIZE
    let tableStart ← w.u64At header 0
    let xattrIds ← w.u32At header 8
    let n := w.narrow xattrIds.toNat
    if n = 0 then return some ⟨tableStart, []⟩
    else if headerAt ≤ tableStart then
      fails (.badMetadata "xattr pair table starts at or after its own index")
    else
      let bytes ← readIndirectTable w readBlock dev sb
        (headerAt + UInt64.ofNat ID_TABLE_HEADER_SIZE) (w.narrow (n * ID_ENTRY_SIZE))
      let ids ← tabulate (fun i => do
        let e ← slice bytes (w.narrow (i * ID_ENTRY_SIZE))
          (w.narrow (w.narrow (i + 1) * ID_ENTRY_SIZE))
        return ⟨← w.u64At e 0, ← w.u32At e 8, ← w.u32At e 12⟩) n
      return some ⟨tableStart, ids⟩

/-- Metadata blocks read as on a wide target. -/
def blockReader (codecs : Codecs) (dev : Device) (sb : Superblock) (p : UInt64) : Res Bytes := do
  let (block, _next) ← readBlockUncached codecs dev sb p.toNat
  return block

theorem returns_blockReader (codecs : Codecs) (dev : Device) (sb : Superblock) (p : UInt64) :
    Returns (blockReader codecs dev sb p) :=
  returns_bind (safe_readBlockUncached codecs dev sb p.toNat).returns fun _ _ => trivial

section Tables

variable {w : Width} {readBlock : UInt64 → Res Bytes} {dev : Device} {sb : Superblock}
  {tableStart : UInt64} {totalBytes : Nat}

/-- The image holds a table of `totalBytes` bytes at `tableStart`: its pointers are in the image
and name blocks that can be read and hold as many. -/
def HoldsTable (readBlock : UInt64 → Res Bytes) (dev : Device) (sb : Superblock)
    (tableStart : UInt64) (totalBytes : Nat) : Prop :=
  totalBytes = 0 ∨ ∃ ptrBytes, ∃ blocks : List Bytes,
    tableBlockCount totalBytes * 8 ≤ min sb.bytesUsed.toNat dev.sizeBytes - tableStart.toNat ∧
    dev.read tableStart.toNat (tableBlockCount totalBytes * 8) = .ok ptrBytes ∧
    blocks.length = tableBlockCount totalBytes ∧
    (∀ i block, blocks[i]? = some block →
      readBlock (u64le ((ptrBytes.drop (i * 8)).take 8)) = .ok block) ∧
    totalBytes ≤ blocks.flatten.length

/-- The pointers of a table whose size fits are read as on a wide target. -/
theorem readPointers_eq {overflow short : String} {nBlocks : Nat} (h : nBlocks * 8 < w.size) :
    readPointers w dev sb overflow short tableStart nBlocks =
      Squashfs.readPointers dev sb overflow short tableStart.toNat nBlocks := by
  have hsize := w.size_le
  unfold readPointers Squashfs.readPointers
  rw [Width.checkedMul_of_lt h, checkedMul_eq_some.mpr ⟨by omega, rfl⟩]

theorem pointerAt_ok {ptrBytes : Bytes} {n i : Nat} (hlen : ptrBytes.length = n * 8)
    (hsmall : n * 8 < w.size) (hi : i < n) :
    pointerAt w ptrBytes i = .ok (u64le ((ptrBytes.drop (i * 8)).take 8)) := by
  unfold pointerAt
  rw [Width.narrow_of_lt (by omega), Width.u64At_ok (by omega) (by omega)]

/-- A table that fits in `usize` has pointers that do. -/
theorem pointers_lt (h : totalBytes < w.size) : tableBlockCount totalBytes * 8 < w.size := by
  have hword := w.le_size
  unfold tableBlockCount METADATA_SIZE
  omega

theorem divCeil_blocks (totalBytes : Nat) :
    (divCeil totalBytes METADATA_SIZE : Res Nat) = .ok (tableBlockCount totalBytes) :=
  divCeil_ok (by decide)

/-- **Reading an indirect table** gives its bytes, or is refused. -/
theorem safe_readIndirectTable (hread : ∀ p, Returns (readBlock p)) (h : totalBytes < w.size) :
    Safe (fun out => totalBytes ≤ out.length)
      (readIndirectTable w readBlock dev sb tableStart totalBytes) := by
  have hptr := pointers_lt h
  unfold readIndirectTable
  refine safe_ite (fun h0 => by rw [h0]; exact Nat.zero_le _) fun hpos => ?_
  rw [divCeil_blocks, ok_bind, readPointers_eq hptr]
  refine safe_bind (returns_readPointers dev sb _ _ _ _) fun ptrBytes hlen => ?_
  refine safe_bind (safe_tabulate (P := fun _ => True) fun i hi => ?_) fun blocks _ => ?_
  · rw [pointerAt_ok hlen.1 hptr hi, ok_bind]
    exact (hread _).safe fun _ _ => trivial
  · exact safe_ite (fun _ => trivial) fun hlen => Nat.le_of_not_lt hlen

/-- **A table is read exactly when** the image holds it. -/
theorem holdsTable_iff (h : totalBytes < w.size) :
    (∃ out, readIndirectTable w readBlock dev sb tableStart totalBytes = .ok out) ↔
      HoldsTable readBlock dev sb tableStart totalBytes := by
  have hptr := pointers_lt h
  unfold readIndirectTable HoldsTable
  by_cases hzero : totalBytes = 0
  · rw [if_pos hzero]
    exact iff_of_true ⟨[], rfl⟩ (.inl hzero)
  · rw [if_neg hzero, or_iff_right hzero, divCeil_blocks, ok_bind, readPointers_eq hptr]
    constructor
    · rintro ⟨out, hout⟩
      obtain ⟨ptrBytes, hread, hout⟩ := bind_eq_ok.mp hout
      obtain ⟨hroom, hread⟩ := readPointers_eq_ok.mp hread
      obtain ⟨blocks, hblocks, hout⟩ := bind_eq_ok.mp hout
      obtain ⟨hcount, hget⟩ := tabulate_eq_ok.mp hblocks
      dsimp only at hout
      split at hout
      · cases hout
      · rename_i hlen
        refine ⟨ptrBytes, blocks, hroom, hread, hcount, fun i block hi => ?_, by omega⟩
        have hlt := (List.getElem?_eq_some_iff.mp hi).1
        have hblock := hget i block hi
        rw [pointerAt_ok (dev.length_of_read hread) hptr (by omega), ok_bind] at hblock
        exact hblock
    · rintro ⟨ptrBytes, blocks, hroom, hread, hcount, hdecoded, hlen⟩
      refine ⟨blocks.flatten, bind_eq_ok.mpr ⟨ptrBytes, readPointers_eq_ok.mpr ⟨hroom, hread⟩, ?_⟩⟩
      refine bind_eq_ok.mpr ⟨blocks, tabulate_eq_ok.mpr ⟨hcount, fun i block hi => ?_⟩, ?_⟩
      · have hlt := (List.getElem?_eq_some_iff.mp hi).1
        rw [hcount] at hlt
        rw [pointerAt_ok (dev.length_of_read hread) hptr hlt, ok_bind]
        exact hdecoded i block hi
      · dsimp only
        rw [if_neg (by omega)]
        rfl

/-! ### As on a wide target -/

variable {codecs : Codecs}

theorem pointerAt_w64 {ptrBytes : Bytes} {n i : Nat} (h : n * 8 < wordSize) (hi : i < n) :
    pointerAt .w64 ptrBytes i = Squashfs.pointerAt ptrBytes i := by
  unfold pointerAt Squashfs.pointerAt
  rw [Width.narrow_of_lt (show i * 8 < wordSize by omega), mul64_ok (by omega), ok_bind]
  exact Width.u64At_w64 (by omega)

theorem readIndirectTable_w64 (h : totalBytes < wordSize) :
    readIndirectTable .w64 (blockReader codecs dev sb) dev sb tableStart totalBytes =
      Squashfs.readIndirectTable codecs dev sb tableStart.toNat totalBytes := by
  have hptr : tableBlockCount totalBytes * 8 < wordSize := pointers_lt (w := .w64) h
  unfold readIndirectTable Squashfs.readIndirectTable
  rw [divCeil_blocks, ok_bind, ok_bind, readPointers_eq hptr]
  split
  · rfl
  · refine bind_congr fun ptrBytes => ?_
    rw [tabulate_congr fun i hi => congrArg (· >>= blockReader codecs dev sb)
      (pointerAt_w64 hptr hi)]
    rfl

/-- **On a 64-bit target** the fragment table is that of the rest of the development. -/
theorem readFragmentTable_w64 :
    readFragmentTable .w64 (blockReader codecs dev sb) dev sb =
      Squashfs.readFragmentTable codecs dev sb := by
  have hn := sb.fragmentEntryCount.toNat_lt
  unfold readFragmentTable Squashfs.readFragmentTable
  dsimp only
  rw [Width.narrow_of_lt (show sb.fragmentEntryCount.toNat < wordSize by unfold wordSize; omega)]
  split
  · rfl
  · rw [mul64_ok (by unfold wordSize; omega), ok_bind,
      Width.narrow_of_lt (show sb.fragmentEntryCount.toNat * 16 < wordSize by unfold wordSize; omega),
      readIndirectTable_w64 (by unfold wordSize; omega)]
    refine bind_congr fun bytes => tabulate_congr fun i hi => ?_
    rw [Width.narrow_of_lt (show i * 16 < wordSize by unfold wordSize; omega),
      mul64_ok (by unfold wordSize; omega), ok_bind, add64_ok (by unfold wordSize; omega),
      Width.u64At_w64 (by unfold wordSize; omega),
      Width.narrow_of_lt (show i * 16 + 8 < wordSize by unfold wordSize; omega),
      Width.u32At_w64 (by unfold wordSize; omega)]
    rfl

/-! ### Counted right or refused -/

/-- The `count * entrySize` bytes of a table keep their number, or reading it is refused; either
way reading it ends in a value or an error, with no slice outside what was read. -/
def CountedRight {α : Type} (w : Width) (count entrySize : Nat) (r : Res α) : Prop :=
  (w.narrow (count * entrySize) = count * entrySize ∨ ∃ e, r = fails e) ∧ Returns r

/-- What a table reader does with the bytes of its table. -/
theorem countedRight_iff {α : Type} (hread : ∀ p, Returns (readBlock p)) {count entrySize : Nat}
    {entries : Bytes → Res α} (hnofail : ∀ bytes e, Avoids e (entries bytes))
    (hsafe : count * entrySize < w.size → ∀ bytes, count * entrySize ≤ bytes.length →
      Returns (entries bytes)) :
    CountedRight w count entrySize
        (readIndirectTable w readBlock dev sb tableStart (w.narrow (count * entrySize)) >>= entries) ↔
      count * entrySize < w.size ∨
        ¬ HoldsTable readBlock dev sb tableStart (w.narrow (count * entrySize)) := by
  have hsmall := w.narrow_lt (count * entrySize)
  have htotal : Safe (fun out => w.narrow (count * entrySize) ≤ out.length)
      (readIndirectTable w readBlock dev sb tableStart (w.narrow (count * entrySize))) :=
    safe_readIndirectTable hread hsmall
  rw [← holdsTable_iff hsmall]
  rcases htable : readIndirectTable w readBlock dev sb tableStart (w.narrow (count * entrySize))
    with f | bytes
  · -- refused
    rw [htable] at htotal
    rcases f with e | - | -
    · exact iff_of_true ⟨.inr ⟨e, rfl⟩, trivial⟩ (.inr fun ⟨_, h⟩ => nomatch h)
    · exact htotal.elim
    · exact htotal.elim
  · rw [htable] at htotal
    rw [ok_bind, or_iff_left (not_not_intro ⟨bytes, rfl⟩)]
    unfold CountedRight
    rw [or_iff_left fun ⟨e, he⟩ => hnofail bytes e he, Width.narrow_eq_iff]
    refine and_iff_left_of_imp fun hfits => hsafe hfits bytes ?_
    rw [Width.narrow_of_lt hfits] at htotal
    exact htotal

/-- A table without entries is counted right. -/
theorem countedRight_empty {α : Type} {count entrySize : Nat} (h : count = 0) {r : Res α}
    (hr : Returns r) :
    CountedRight w count entrySize r ↔
      count * entrySize < w.size ∨
        ¬ HoldsTable readBlock dev sb tableStart (w.narrow (count * entrySize)) := by
  have hfits : count * entrySize < w.size := by
    rw [h, Nat.zero_mul]
    exact Nat.lt_of_lt_of_le (by decide) w.le_size
  exact iff_of_true ⟨.inl (Width.narrow_of_lt hfits), hr⟩ (.inl hfits)

theorem narrow_u32 (w : Width) (x : UInt32) : w.narrow x.toNat = x.toNat :=
  Width.narrow_of_lt (Nat.lt_of_lt_of_le x.toNat_lt w.le_size)

/-- **The fragment table.** -/
theorem countedRight_readFragmentTable (hread : ∀ p, Returns (readBlock p)) :
    CountedRight w sb.fragmentEntryCount.toNat 16 (readFragmentTable w readBlock dev sb) ↔
      sb.fragmentEntryCount.toNat * 16 < w.size ∨
        ¬ HoldsTable readBlock dev sb sb.fragmentTableStart
          (w.narrow (sb.fragmentEntryCount.toNat * 16)) := by
  unfold readFragmentTable
  dsimp only
  rw [narrow_u32]
  by_cases hn : sb.fragmentEntryCount.toNat = 0
  · rw [if_pos hn]
    exact countedRight_empty hn trivial
  · rw [if_neg hn]
    refine countedRight_iff hread (fun bytes e => avoids_tabulate (fun i => by simp) _) ?_
    intro hfits bytes hlen
    refine Safe.returns (safe_tabulate (P := fun _ => True) fun i hi => ?_)
    rw [Width.narrow_of_lt (by omega), Width.u64At_ok (by omega) (by omega), ok_bind,
      Width.narrow_of_lt (by omega), Width.u32At_ok (by omega) (by omega)]
    trivial

/-- **The id table** has at most 65535 entries, so its bytes are always counted right. -/
theorem countedRight_readIdTable (hread : ∀ p, Returns (readBlock p)) :
    CountedRight w sb.idCount.toNat 4 (readIdTable w readBlock dev sb) := by
  have hcount := sb.idCount.toNat_lt
  have hword := w.le_size
  unfold readIdTable
  dsimp only
  rw [Width.narrow_of_lt (by omega : sb.idCount.toNat < w.size)]
  by_cases hn : sb.idCount.toNat = 0
  · rw [if_pos hn]
    exact ⟨.inl (Width.narrow_of_lt (by omega)), trivial⟩
  · rw [if_neg hn]
    refine (countedRight_iff hread (fun bytes e => avoids_tabulate (fun i => by simp) _) ?_).mpr
      (.inl (by omega))
    intro hfits bytes hlen
    refine Safe.returns (safe_tabulate (P := fun _ => True) fun i hi => ?_)
    rw [Width.narrow_of_lt (by omega), Width.u32At_ok (by omega) (by omega)]
    trivial

/-- The pointers of the export table are in the image. -/
def HoldsPointers (dev : Device) (sb : Superblock) (tableStart : UInt64) (totalBytes : Nat) : Prop :=
  tableBlockCount totalBytes * 8 ≤ min sb.bytesUsed.toNat dev.sizeBytes - tableStart.toNat ∧
    ∃ ptrBytes, dev.read tableStart.toNat (tableBlockCount totalBytes * 8) = .ok ptrBytes

/-- **The export table**, of an image that has one. -/
theorem countedRight_readExportTable (hstart : sb.exportTableStart ≠ NO_TABLE) :
    CountedRight w sb.inodeCount.toNat EXPORT_ENTRY_SIZE (readExportTable w dev sb) ↔
      sb.inodeCount.toNat * EXPORT_ENTRY_SIZE < w.size ∨
        ¬ HoldsPointers dev sb sb.exportTableStart
          (w.narrow (sb.inodeCount.toNat * EXPORT_ENTRY_SIZE)) := by
  unfold readExportTable
  dsimp only
  rw [if_neg hstart, narrow_u32]
  by_cases hn : sb.inodeCount = 0
  · have hfits : sb.inodeCount.toNat * EXPORT_ENTRY_SIZE < w.size := by
      rw [hn]
      exact Nat.lt_of_lt_of_le (by decide) w.le_size
    rw [if_pos hn]
    exact iff_of_true ⟨.inl (Width.narrow_of_lt hfits), trivial⟩ (.inl hfits)
  · have hptr := pointers_lt (w.narrow_lt (sb.inodeCount.toNat * EXPORT_ENTRY_SIZE))
    rw [if_neg hn, divCeil_blocks, ok_bind, readPointers_eq hptr]
    rcases hread : Squashfs.readPointers dev sb "export table pointer array overflows"
        "export table declares more blocks than it has room for" sb.exportTableStart.toNat
        (tableBlockCount (w.narrow (sb.inodeCount.toNat * EXPORT_ENTRY_SIZE))) with f | ptrBytes
    · -- refused
      have hsafe := returns_readPointers dev sb "export table pointer array overflows"
        "export table declares more blocks than it has room for" sb.exportTableStart.toNat
        (tableBlockCount (w.narrow (sb.inodeCount.toNat * EXPORT_ENTRY_SIZE)))
      rw [hread] at hsafe
      rcases f with e | - | -
      · refine iff_of_true ⟨.inr ⟨e, rfl⟩, trivial⟩ (.inr ?_)
        rintro ⟨hroom, ptrBytes, hptrs⟩
        rw [readPointers_eq_ok.mpr ⟨hroom, hptrs⟩] at hread
        cases hread
      · exact hsafe.elim
      · exact hsafe.elim
    · obtain ⟨hroom, hptrs⟩ := readPointers_eq_ok.mp hread
      have hlen := dev.length_of_read hptrs
      have hstarts : Safe (fun _ => True) (tabulate (pointerAt w ptrBytes)
          (tableBlockCount (w.narrow (sb.inodeCount.toNat * EXPORT_ENTRY_SIZE)))) :=
        (safe_tabulate (P := fun _ => True) fun i hi => by
          rw [pointerAt_ok hlen hptr hi]
          trivial).mono fun _ _ => trivial
      rw [ok_bind, or_iff_left (not_not_intro ⟨hroom, ptrBytes, hptrs⟩)]
      unfold CountedRight
      have hnofail : ∀ e, Avoids e (tabulate (pointerAt w ptrBytes)
          (tableBlockCount (w.narrow (sb.inodeCount.toNat * EXPORT_ENTRY_SIZE))) >>=
          fun blockStarts => (return some ⟨blockStarts, sb.inodeCount⟩ :
            Res (Option ExportTable))) := fun e =>
        avoids_bind.mpr ⟨avoids_tabulate (fun i => by simp [pointerAt]) _, fun _ _ => avoids_pure _⟩
      rw [or_iff_left fun ⟨e, he⟩ => hnofail e he, Width.narrow_eq_iff]
      exact and_iff_left (returns_bind hstarts.returns fun _ _ => trivial)

/-- **The xattr id table**, of an image that has one and whose header can be read. -/
theorem countedRight_readXattrIdTable (hread : ∀ p, Returns (readBlock p))
    (hstart : sb.xattrIdTableStart ≠ NO_TABLE) {header : Bytes}
    (hheader : dev.read sb.xattrIdTableStart.toNat ID_TABLE_HEADER_SIZE = .ok header) :
    CountedRight w (u32le ((header.drop 8).take 4)).toNat ID_ENTRY_SIZE
        (readXattrIdTable w readBlock dev sb) ↔
      (u32le ((header.drop 8).take 4)).toNat * ID_ENTRY_SIZE < w.size ∨
        sb.xattrIdTableStart ≤ u64le (header.take 8) ∨
        ¬ HoldsTable readBlock dev sb (sb.xattrIdTableStart + UInt64.ofNat ID_TABLE_HEADER_SIZE)
          (w.narrow ((u32le ((header.drop 8).take 4)).toNat * ID_ENTRY_SIZE)) := by
  have hlen : header.length = 16 := dev.length_of_read hheader
  have hword := w.le_size
  unfold readXattrIdTable
  dsimp only
  rw [if_neg hstart, hheader, ok_bind, Width.u64At_ok (by omega) (by omega), ok_bind,
    Width.u32At_ok (by omega) (by omega), ok_bind, List.drop_zero, narrow_u32]
  generalize u32le ((header.drop 8).take 4) = xattrIds
  by_cases hn : xattrIds.toNat = 0
  · have hfits : xattrIds.toNat * ID_ENTRY_SIZE < w.size := by
      rw [hn, Nat.zero_mul]
      omega
    rw [if_pos hn]
    exact iff_of_true ⟨.inl (Width.narrow_of_lt hfits), trivial⟩ (.inl hfits)
  · rw [if_neg hn]
    by_cases hbehind : sb.xattrIdTableStart ≤ u64le (header.take 8)
    · rw [if_pos hbehind]
      exact iff_of_true ⟨.inr ⟨_, rfl⟩, trivial⟩ (.inr (.inl hbehind))
    · rw [if_neg hbehind, or_iff_right hbehind]
      refine countedRight_iff hread (fun bytes e => avoids_bind.mpr
        ⟨avoids_tabulate (fun i => by simp) _, fun _ _ => avoids_pure _⟩) ?_
      intro hfits bytes hbytes
      unfold ID_ENTRY_SIZE at hfits hbytes ⊢
      refine returns_bind (Safe.returns (safe_tabulate (P := fun _ => True) fun i hi => ?_))
        fun _ _ => trivial
      rw [Width.narrow_of_lt (by omega), Width.narrow_of_lt (by omega : i + 1 < w.size),
        Width.narrow_of_lt (by omega), slice_ok (by omega) (by omega), ok_bind]
      have he : ((bytes.drop (i * 16)).take ((i + 1) * 16 - i * 16)).length = 16 := by
        rw [show (i + 1) * 16 - i * 16 = 16 by omega]
        exact window_length (by omega)
      rw [Width.u64At_ok (by omega) (by omega), ok_bind, Width.u32At_ok (by omega) (by omega),
        ok_bind, Width.u32At_ok (by omega) (by omega)]
      trivial

end Tables

/-! ## Both -/

/-- **The counts keep their values exactly when they fit**, or what is left of them does no harm:
a read's buffer is no longer than what is left, a table is refused. -/
theorem counts_exact_iff (w : Width) {readBlock : UInt64 → Res Bytes}
    (hread : ∀ p, Returns (readBlock p)) :
    (∀ f fs inode offset buf, ReadsAll w f fs inode offset buf ↔
      inode.fileSize.toNat - offset.toNat < w.size ∨
        buf.length ≤ w.narrow (inode.fileSize.toNat - offset.toNat)) ∧
    (∀ dev sb, CountedRight w sb.idCount.toNat 4 (readIdTable w readBlock dev sb)) ∧
    (∀ dev (sb : Superblock),
      CountedRight w sb.fragmentEntryCount.toNat 16 (readFragmentTable w readBlock dev sb) ↔
        sb.fragmentEntryCount.toNat * 16 < w.size ∨
          ¬ HoldsTable readBlock dev sb sb.fragmentTableStart
            (w.narrow (sb.fragmentEntryCount.toNat * 16))) ∧
    (∀ dev (sb : Superblock), sb.exportTableStart ≠ NO_TABLE →
      (CountedRight w sb.inodeCount.toNat EXPORT_ENTRY_SIZE (readExportTable w dev sb) ↔
        sb.inodeCount.toNat * EXPORT_ENTRY_SIZE < w.size ∨
          ¬ HoldsPointers dev sb sb.exportTableStart
            (w.narrow (sb.inodeCount.toNat * EXPORT_ENTRY_SIZE)))) ∧
    ∀ dev (sb : Superblock) header, sb.xattrIdTableStart ≠ NO_TABLE →
      dev.read sb.xattrIdTableStart.toNat ID_TABLE_HEADER_SIZE = .ok header →
      (CountedRight w (u32le ((header.drop 8).take 4)).toNat ID_ENTRY_SIZE
          (readXattrIdTable w readBlock dev sb) ↔
        (u32le ((header.drop 8).take 4)).toNat * ID_ENTRY_SIZE < w.size ∨
          sb.xattrIdTableStart ≤ u64le (header.take 8) ∨
          ¬ HoldsTable readBlock dev sb (sb.xattrIdTableStart + UInt64.ofNat ID_TABLE_HEADER_SIZE)
            (w.narrow ((u32le ((header.drop 8).take 4)).toNat * ID_ENTRY_SIZE))) :=
  ⟨fun f fs inode offset buf => readsAll_iff w f fs inode offset buf,
    fun _ _ => countedRight_readIdTable hread,
    fun _ _ => countedRight_readFragmentTable hread,
    fun _ _ hstart => countedRight_readExportTable hstart,
    fun _ _ _ hstart hheader => countedRight_readXattrIdTable hread hstart hheader⟩

/-- Two fragments, the references of two inodes and an attribute set, and where they are. -/
def countedBytes : Bytes :=
  storeRaw (u64Bytes 9 ++ u32Bytes 3 ++ u32Bytes 0 ++ (u64Bytes 12 ++ u32Bytes 4 ++ u32Bytes 0)) ++
    storeRaw (u64Bytes 32 ++ u64Bytes 64) ++
    storeRaw (u64Bytes 0 ++ u32Bytes 1 ++ u32Bytes 9) ++ u64Bytes 0 ++ u64Bytes 34 ++
    (u64Bytes 5 ++ u32Bytes 1 ++ u32Bytes 0) ++ u64Bytes 52

def countedDevice : Device := Device.ofBytes countedBytes (by decide)

def countedSuperblock : Superblock :=
  { sample.sb with
    inodeCount := 2
    fragmentEntryCount := 2
    bytesUsed := 110
    fragmentTableStart := 70
    exportTableStart := 78
    xattrIdTableStart := 86 }

/-- The sample's file and those three tables on a 32-bit target. -/
theorem counts_exact_sample :
    ReadsAll .w32 (sample.answers .none) sample PlainImage.sampleFile 1 [0, 0, 0, 7] ∧
      (CountedRight .w32 2 16 (readFragmentTable .w32
          (blockReader .none countedDevice countedSuperblock) countedDevice countedSuperblock) ∧
        readFragmentTable .w32 (blockReader .none countedDevice countedSuperblock) countedDevice
          countedSuperblock = .ok [⟨9, 3⟩, ⟨12, 4⟩]) ∧
      (CountedRight .w32 2 8 (readExportTable .w32 countedDevice countedSuperblock) ∧
        readExportTable .w32 countedDevice countedSuperblock = .ok (some ⟨[34], 2⟩)) ∧
      CountedRight .w32 1 16 (readXattrIdTable .w32
          (blockReader .none countedDevice countedSuperblock) countedDevice countedSuperblock) ∧
        readXattrIdTable .w32 (blockReader .none countedDevice countedSuperblock) countedDevice
          countedSuperblock = .ok (some ⟨5, [⟨0, 1, 9⟩]⟩) := by
  obtain ⟨hfile, -, hfragments, hexports, hsets⟩ :=
    @counts_exact_iff .w32 (blockReader .none countedDevice countedSuperblock)
      (returns_blockReader .none countedDevice countedSuperblock)
  have hheader : countedDevice.read countedSuperblock.xattrIdTableStart.toNat
      ID_TABLE_HEADER_SIZE = .ok (u64Bytes 5 ++ u32Bytes 1 ++ u32Bytes 0) := by decide +kernel
  refine ⟨(hfile (sample.answers .none) sample PlainImage.sampleFile 1 [0, 0, 0, 7]).mpr
      (.inl (by decide +kernel)), ⟨?_, by decide +kernel⟩, ⟨?_, by decide +kernel⟩, ?_,
    by decide +kernel⟩
  · exact (hfragments countedDevice countedSuperblock).mpr (.inl (by decide +kernel))
  · exact (hexports countedDevice countedSuperblock (by decide +kernel)).mpr
      (.inl (by decide +kernel))
  · exact (hsets countedDevice countedSuperblock _ (by decide +kernel) hheader).mpr
      (.inl (by decide +kernel))

/-- The sparse blocks of a file of 2³² bytes. -/
def hugeSizes : List UInt32 := List.replicate (2 ^ 20) 0

/-- A file of 2³² bytes, all of its blocks sparse. -/
def hugeRecord : InodeRecord :=
  .extFile 96 0x100000000 0 1 SQUASHFS_INVALID_FRAG 0 SQUASHFS_INVALID_XATTR hugeSizes

/-- On a 32-bit target the bytes of 2²⁸ fragments wrap to none, and the table is not refused. -/
theorem wraps_to_nothing (codecs : Codecs) (dev : Device) (sb : Superblock)
    (h : sb.fragmentEntryCount = 0x10000000) :
    ¬ CountedRight .w32 0x10000000 16
      (readFragmentTable .w32 (blockReader codecs dev sb) dev sb) := by
  have hcount : sb.fragmentEntryCount.toNat = 0x10000000 := by
    rw [h]
    rfl
  have hiff := @countedRight_readFragmentTable .w32 (blockReader codecs dev sb) dev sb
    (returns_blockReader codecs dev sb)
  rw [hcount] at hiff
  refine mt hiff.mp ?_
  rintro (hfits | hno)
  · exact absurd hfits (by decide)
  · exact hno (.inl rfl)

/-- **A file of 2³² bytes reads as empty** on a 32-bit target. -/
theorem huge_file_reads_nothing :
    hugeRecord.Valid sample.sb.blockSize.toNat ∧
      let inode := hugeRecord.toInode ⟨0x1A4, 0, 0, 0, 2⟩
      Stateful.exec (sample.answers .none) (readFile .w32 sample inode 0) [7] = (.ok 0, [7]) ∧
      ¬ ReadsAll .w32 (sample.answers .none) sample inode 0 [7] ∧
      let sb := { sample.sb with fragmentEntryCount := 0x10000000 }
      ¬ CountedRight .w32 0x10000000 16
        (readFragmentTable .w32 (blockReader .none sample.dev sb) sample.dev sb) := by
  refine ⟨⟨?_, ?_⟩, rfl, ?_, ?_⟩
  · exact List.length_replicate
  · exact List.length_replicate.trans_le (by decide)
  · rw [readsAll_iff]
    decide +kernel
  · exact wraps_to_nothing .none sample.dev _ rfl

end Release

end Squashfs
