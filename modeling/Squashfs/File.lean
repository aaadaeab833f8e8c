import Squashfs.Foundation.Blocks
import Squashfs.Fs

/-!
# Reading a file

About `read_file` (`src/fs.rs:606-741`). `logicalBlock` says what the bytes of a file's `i`-th block
are, and whether the image has them, from the file's geometry and the answers to the reader's
requests alone; `fileBytes` joins them.

**`readLoop_ok`**: a read whose blocks are all there gives the window of `fileBytes` asked for, and
touches nothing past it. **`readLoop_err`**: a read that needs a block that is not there fails. Both
go by one turn of the loop (`readChunk_ok`, `readChunk_err`).
-/

namespace Squashfs

open Foundation

/-! ## What the inode reader promises -/

/-- The geometry of an inode the reader gives: a file has as many size words as its size asks for,
and a directory's size fits the word it is stored in. -/
structure Inode.Geometry (sb : Superblock) (inode : Inode) : Prop where
  count : inode.isRegularFile = true → inode.blockSizes.length =
    InodeRecord.blocksNeeded inode.fileSize.toNat sb.blockSize.toNat inode.fragmentIndex
  small : inode.blockSizes.length ≤ MAX_BLOCKS
  listing : inode.isDir = true → inode.fileSize.toNat < 2 ^ 32

theorem InodeRecord.geometry {sb : Superblock} (h : InodeHeader) {r : InodeRecord}
    (hr : r.Valid sb.blockSize.toNat) : (r.toInode h).Geometry sb := by
  cases r with
  | basicFile _ fragment _ fileSize sizes =>
    have hcount : sizes.length =
        blocksNeeded fileSize.toUInt64.toNat sb.blockSize.toNat fragment := by
      rw [UInt32.toNat_toUInt64]
      exact hr.1
    exact ⟨fun _ => hcount, hr.2, nofun⟩
  | extFile => exact ⟨fun _ => hr.1, hr.2, nofun⟩
  | basicDir _ _ fileSize =>
    have hlt : fileSize.toUInt64.toNat < 2 ^ 32 := by
      rw [UInt16.toNat_toUInt64]
      exact Nat.lt_trans fileSize.toNat_lt (by decide)
    exact ⟨nofun, Nat.zero_le _, fun _ => hlt⟩
  | extDir _ fileSize =>
    have hlt : fileSize.toUInt64.toNat < 2 ^ 32 := by
      rw [UInt32.toNat_toUInt64]
      exact fileSize.toNat_lt
    exact ⟨nofun, Nat.zero_le _, fun _ => hlt⟩
  | _ => exact ⟨nofun, Nat.zero_le _, nofun⟩

/-- **An inode the reader gives has its geometry in order.** -/
theorem Inode.geometry_of_read {f : ∀ q, Reply q} (hf : Tame f) {sb : Superblock}
    {inodeRef : UInt64} {inode : Inode} (h : Asking.exec f (Inode.read sb inodeRef) = .ok inode) :
    inode.Geometry sb := by
  obtain ⟨hd, r, hvalid, rfl, -⟩ := (Inode.exec_read hf sb inodeRef inode).mp h
  exact r.geometry hd hvalid

namespace Filesystem

/-! ## The bytes of a file -/

/-- Where data block `i` of a file starts: the sizes of the blocks before it add up. -/
def blockOffset (inode : Inode) (i : Nat) : Nat :=
  min (inode.blocksStart.toNat +
    ((inode.blockSizes.take i).map fun size => (dataOnDiskSize size).toNat).sum) (wordSize - 1)

/-- The bytes of block `i` that belong to the file. -/
def blockLen (fs : Filesystem) (inode : Inode) (i : Nat) : Nat :=
  min fs.sb.blockSize.toNat (inode.fileSize.toNat - i * fs.sb.blockSize.toNat)

/-- Full data block `i`: zeros when its size word says so, and otherwise the decoded block when
it has the length it must have. -/
def dataBlock (f : ∀ q, Reply q) (fs : Filesystem) (inode : Inode) (i : Nat) : Option Bytes := do
  let sizeWord ← inode.blockSizes[i]?
  if (dataOnDiskSize sizeWord).toNat = 0 then some (List.replicate (fs.blockLen inode i) 0)
  else
    let block ← (f (.data (blockOffset inode i) sizeWord (fs.blockLen inode i))).toOption
    if block.length = fs.blockLen inode i then some block else none

/-- A file's tail: its window into the decoded fragment block. -/
def tailBlock (f : ∀ q, Reply q) (fs : Filesystem) (inode : Inode) : Option Bytes := do
  let frag ← fs.fragments[inode.fragmentIndex.toNat]?
  let block ← (f (.data frag.start.toNat frag.size fs.sb.blockSize.toNat)).toOption
  let tail := inode.fileSize.toNat % fs.sb.blockSize.toNat
  if inode.fragmentOffset.toNat + tail ≤ block.length then
    some ((block.drop inode.fragmentOffset.toNat).take tail)
  else none

/-- Logical block `i` of a file, when the image has it. -/
def logicalBlock (f : ∀ q, Reply q) (fs : Filesystem) (inode : Inode) (i : Nat) : Option Bytes :=
  if i < inode.blockSizes.length then fs.dataBlock f inode i
  else if inode.fragmentIndex ≠ SQUASHFS_INVALID_FRAG then fs.tailBlock f inode
  else none

/-- The logical blocks of a file, with zeros for those the image does not have. -/
def fileBlocks (f : ∀ q, Reply q) (fs : Filesystem) (inode : Inode) : List Bytes :=
  (List.range ((inode.fileSize.toNat + fs.sb.blockSize.toNat - 1) / fs.sb.blockSize.toNat)).map
    fun i => (fs.logicalBlock f inode i).getD (List.replicate (fs.blockLen inode i) 0)

/-- The bytes of a file. -/
def fileBytes (f : ∀ q, Reply q) (fs : Filesystem) (inode : Inode) : Bytes :=
  (fs.fileBlocks f inode).flatten

/-- Block `i` has bytes in `[lo, hi)`. -/
def Overlaps (fs : Filesystem) (lo hi i : Nat) : Prop :=
  i * fs.sb.blockSize.toNat < hi ∧ lo < (i + 1) * fs.sb.blockSize.toNat

/-- Every block with bytes in `[lo, hi)` is there. -/
def Available (f : ∀ q, Reply q) (fs : Filesystem) (inode : Inode) (lo hi : Nat) : Prop :=
  ∀ i, fs.Overlaps lo hi i → fs.logicalBlock f inode i ≠ none

end Filesystem

/-! ## One block -/

theorem saturatingAdd_saturated (a b c : Nat) :
    min (saturatingAdd a b + c) (wordSize - 1) = min (a + (b + c)) (wordSize - 1) := by
  unfold saturatingAdd
  omega

theorem getElem?_offsetsFrom {sizes : List UInt32} {cursor i : Nat} (hc : cursor < wordSize)
    (hi : i < sizes.length) :
    (Filesystem.offsetsFrom cursor sizes)[i]? = some (min (cursor +
      ((sizes.take i).map fun size => (dataOnDiskSize size).toNat).sum) (wordSize - 1)) := by
  induction sizes generalizing cursor i with
  | nil => cases hi
  | cons size sizes ih =>
    cases i with
    | zero =>
      rw [Filesystem.offsetsFrom, List.getElem?_cons_zero, List.take_zero, List.map_nil,
        List.sum_nil, Nat.add_zero, Nat.min_eq_left (Nat.le_sub_one_of_lt hc)]
    | succ i =>
      rw [Filesystem.offsetsFrom, List.getElem?_cons_succ,
        ih (saturatingAdd_lt _ _) (Nat.lt_of_succ_lt_succ hi), List.take_succ_cons, List.map_cons,
        List.sum_cons, saturatingAdd_saturated]

theorem index_blockOffsets {inode : Inode} {i : Nat} (hi : i < inode.blockSizes.length) :
    (index (Filesystem.blockOffsets inode) i : Res Nat) = .ok (Filesystem.blockOffset inode i) := by
  rw [index_eq_ok]
  exact getElem?_offsetsFrom inode.blocksStart.toNat_lt hi

namespace Filesystem

variable {f : ∀ q, Reply q} {fs : Filesystem} {inode : Inode}

theorem blockLen_lt (fs : Filesystem) (inode : Inode) (i : Nat) : fs.blockLen inode i < isizeMax :=
  Nat.lt_of_le_of_lt (Nat.min_le_left _ _) (Nat.lt_of_le_of_lt fs.sb.blockSize_le (by decide))

/-- A block in front of the fragment begins inside the file. -/
theorem block_inside (hgeo : inode.Geometry fs.sb) (hfile : inode.isRegularFile = true)
    {i : Nat} (hi : i < inode.blockSizes.length) :
    i * fs.sb.blockSize.toNat ≤ inode.fileSize.toNat := by
  have hbs := fs.sb.blockSize_pos
  have hcount := hgeo.count hfile
  unfold InodeRecord.blocksNeeded at hcount
  generalize fs.sb.blockSize.toNat = bs at *
  split at hcount
  · have hle : (i + 1) * bs ≤ inode.fileSize.toNat + bs - 1 := by
      have hmul := Nat.div_mul_le_self (inode.fileSize.toNat + bs - 1) bs
      rw [← hcount] at hmul
      exact Nat.le_trans (Nat.mul_le_mul_right bs hi) hmul
    rw [Nat.succ_mul] at hle
    omega
  · have hmul := Nat.div_mul_le_self inode.fileSize.toNat bs
    rw [← hcount] at hmul
    exact Nat.le_trans (Nat.mul_le_mul_right bs (Nat.le_of_lt hi)) hmul

/-- The tail behind the full blocks is what the last block leaves over. -/
theorem tail_of_fragment (hgeo : inode.Geometry fs.sb) (hfile : inode.isRegularFile = true)
    (hfrag : inode.fragmentIndex ≠ SQUASHFS_INVALID_FRAG) :
    inode.blockSizes.length = inode.fileSize.toNat / fs.sb.blockSize.toNat := by
  rw [hgeo.count hfile]
  exact if_neg hfrag

theorem toOption_eq_some {α : Type} {x : Res α} {a : α} : x.toOption = some a ↔ x = .ok a := by
  cases x <;> simp [Except.toOption]

theorem toOption_eq_none {α : Type} {x : Res α} (hx : Returns x) (h : x.toOption = none) :
    ∃ e, x = .error (.err e) := by
  rcases x with (e | _ | _) | a
  · exact ⟨e, rfl⟩
  · exact hx.elim
  · exact hx.elim
  · cases h

/-- What reading full data block `i` comes to: its zeros, or the device's block checked. -/
theorem exec_readFullBlock (hgeo : inode.Geometry fs.sb) (hfile : inode.isRegularFile = true)
    {i : Nat} (hi : i < inode.blockSizes.length) :
    Asking.exec f (fs.readFullBlock inode i (blockOffsets inode)) =
      if (dataOnDiskSize inode.blockSizes[i]).toNat = 0 then
        .ok ⟨List.replicate (fs.blockLen inode i) 0, 0, fs.blockLen inode i⟩
      else do
        let block ← f (.data (blockOffset inode i) inode.blockSizes[i] (fs.blockLen inode i))
        if block.length ≠ fs.blockLen inode i then
          fails (.badInode "data block decoded to the wrong length")
        else return ⟨block, 0, fs.blockLen inode i⟩ := by
  have hinside := block_inside hgeo hfile hi
  have hsize := inode.fileSize.toNat_lt
  unfold readFullBlock
  simp only [Asking.exec_bind, Asking.exec_lift, Asking.exec_ite, exec_readDataBlock]
  rw [mul64_ok (Nat.lt_of_le_of_lt hinside hsize), ok_bind, sub64_ok hinside, ok_bind,
    index_ok hi, ok_bind, index_blockOffsets hi, ok_bind]
  rfl

theorem asSlice_whole {b : Bytes} {n : Nat} (h : b.length = n) :
    (⟨b, 0, n⟩ : LogicalBlock).asSlice = .ok b := by
  subst h
  unfold LogicalBlock.asSlice
  rw [slice_ok (Nat.zero_le _) (Nat.le_refl _), Nat.sub_zero, List.drop_zero, List.take_length]

/-- A full data block that is there is read, and is the bytes it should be. -/
theorem readFullBlock_some (hgeo : inode.Geometry fs.sb) (hfile : inode.isRegularFile = true)
    {i : Nat} (hi : i < inode.blockSizes.length) {b : Bytes}
    (hb : fs.dataBlock f inode i = some b) :
    b.length = fs.blockLen inode i ∧
      ∃ block, Asking.exec f (fs.readFullBlock inode i (blockOffsets inode)) = .ok block ∧
        block.asSlice = .ok b := by
  rw [exec_readFullBlock hgeo hfile hi]
  unfold dataBlock at hb
  rw [List.getElem?_eq_getElem hi, Option.bind_eq_bind, Option.bind_some] at hb
  split at hb
  · rename_i hzero
    cases hb
    rw [if_pos hzero]
    exact ⟨List.length_replicate, _, rfl, asSlice_whole List.length_replicate⟩
  · rename_i hzero
    obtain ⟨block, hblock, hb⟩ := Option.bind_eq_some_iff.mp hb
    split at hb
    · rename_i hlen
      cases hb
      rw [if_neg hzero, toOption_eq_some.mp hblock, ok_bind, if_neg (not_not_intro hlen)]
      exact ⟨hlen, _, rfl, asSlice_whole hlen⟩
    · cases hb

/-- Reading a full data block that is not there fails. -/
theorem readFullBlock_none (hf : Tame f) (hgeo : inode.Geometry fs.sb)
    (hfile : inode.isRegularFile = true) {i : Nat} (hi : i < inode.blockSizes.length)
    (hb : fs.dataBlock f inode i = none) :
    ∃ e, Asking.exec f (fs.readFullBlock inode i (blockOffsets inode)) = .error (.err e) := by
  rw [exec_readFullBlock hgeo hfile hi]
  unfold dataBlock at hb
  rw [List.getElem?_eq_getElem hi, Option.bind_eq_bind, Option.bind_some] at hb
  split at hb
  · cases hb
  · rename_i hzero
    rw [if_neg hzero]
    have hret := (hf.data (blockOffset inode i) inode.blockSizes[i] _
      (fs.blockLen_lt inode i)).returns
    rcases hx : (f (.data (blockOffset inode i) inode.blockSizes[i] (fs.blockLen inode i))).toOption
      with _ | block
    · obtain ⟨e, he⟩ := toOption_eq_none hret hx
      exact ⟨e, by rw [he, error_bind]⟩
    · rw [hx, Option.bind_eq_bind, Option.bind_some] at hb
      split at hb
      · cases hb
      · rename_i hlen
        rw [toOption_eq_some.mp hx, ok_bind, if_pos hlen]
        exact ⟨_, rfl⟩

/-- What reading the tail comes to: a window of the decoded fragment block. -/
theorem exec_readFragmentTail (hgeo : inode.Geometry fs.sb) (hfile : inode.isRegularFile = true)
    (hfrag : inode.fragmentIndex ≠ SQUASHFS_INVALID_FRAG) :
    Asking.exec f (fs.readFragmentTail inode) = do
      let frag ← okOr (.badInode "fragment index out of range")
        fs.fragments[inode.fragmentIndex.toNat]?
      let block ← f (.data frag.start.toNat frag.size fs.sb.blockSize.toNat)
      let stop := inode.fragmentOffset.toNat + inode.fileSize.toNat % fs.sb.blockSize.toNat
      if block.length < stop then fails (.badInode "fragment tail past fragment block end")
      else return ⟨block, inode.fragmentOffset.toNat, stop⟩ := by
  have hbs := fs.sb.blockSize_pos
  have hble := fs.sb.blockSize_le
  have hsize := inode.fileSize.toNat_lt
  have hoff := inode.fragmentOffset.toNat_lt
  have hcount := tail_of_fragment hgeo hfile hfrag
  have hmod := Nat.mod_lt inode.fileSize.toNat hbs
  have hle := Nat.div_mul_le_self inode.fileSize.toNat fs.sb.blockSize.toNat
  have htail : inode.fileSize.toNat - inode.fileSize.toNat / fs.sb.blockSize.toNat *
      fs.sb.blockSize.toNat = inode.fileSize.toNat % fs.sb.blockSize.toNat := by
    rw [Nat.mod_eq_sub_div_mul]
  unfold readFragmentTail
  simp only [Asking.exec_bind, Asking.exec_lift, Asking.exec_ite, exec_readDataBlock]
  refine bind_congr fun frag => bind_congr fun block => ?_
  rw [hcount, mul64_ok (Nat.lt_of_le_of_lt hle hsize), ok_bind, sub64_ok hle, ok_bind, htail]
  unfold checkedAdd
  rw [if_pos (by unfold wordSize; omega)]
  rfl

/-- A tail that is there is read, and is the bytes it should be. -/
theorem readFragmentTail_some (hgeo : inode.Geometry fs.sb) (hfile : inode.isRegularFile = true)
    (hfrag : inode.fragmentIndex ≠ SQUASHFS_INVALID_FRAG) {b : Bytes}
    (hb : fs.tailBlock f inode = some b) :
    b.length = inode.fileSize.toNat % fs.sb.blockSize.toNat ∧
      ∃ block, Asking.exec f (fs.readFragmentTail inode) = .ok block ∧ block.asSlice = .ok b := by
  rw [exec_readFragmentTail hgeo hfile hfrag]
  obtain ⟨frag, hget, hb⟩ := Option.bind_eq_some_iff.mp hb
  obtain ⟨block, hblock, hb⟩ := Option.bind_eq_some_iff.mp hb
  dsimp only at hb
  split at hb
  · rename_i hfit
    cases hb
    rw [okOr_eq_ok.mpr hget, ok_bind, toOption_eq_some.mp hblock, ok_bind, if_neg (by omega)]
    exact ⟨window_length hfit, _, rfl, slice_window_ok hfit⟩
  · cases hb

/-- Reading a tail that is not there fails. -/
theorem readFragmentTail_none (hf : Tame f) (hgeo : inode.Geometry fs.sb)
    (hfile : inode.isRegularFile = true) (hfrag : inode.fragmentIndex ≠ SQUASHFS_INVALID_FRAG)
    (hb : fs.tailBlock f inode = none) :
    ∃ e, Asking.exec f (fs.readFragmentTail inode) = .error (.err e) := by
  rw [exec_readFragmentTail hgeo hfile hfrag]
  unfold tailBlock at hb
  rcases hget : fs.fragments[inode.fragmentIndex.toNat]? with _ | frag
  · exact ⟨_, rfl⟩
  · rw [hget, Option.bind_eq_bind, Option.bind_some] at hb
    rw [okOr_eq_ok.mpr rfl, ok_bind]
    have hmax : fs.sb.blockSize.toNat < isizeMax :=
      Nat.lt_of_le_of_lt fs.sb.blockSize_le (by decide)
    have hret := (hf.data frag.start.toNat frag.size _ hmax).returns
    rcases hx : (f (.data frag.start.toNat frag.size fs.sb.blockSize.toNat)).toOption with _ | block
    · obtain ⟨e, he⟩ := toOption_eq_none hret hx
      exact ⟨e, by rw [he, error_bind]⟩
    · rw [hx, Option.bind_eq_bind, Option.bind_some] at hb
      dsimp only at hb
      split at hb
      · cases hb
      · rename_i hfit
        rw [toOption_eq_some.mp hx, ok_bind, if_pos (by omega)]
        exact ⟨_, rfl⟩

/-- A block inside the file is one of its full blocks or its tail. -/
theorem tail_block (hgeo : inode.Geometry fs.sb) (hfile : inode.isRegularFile = true) {i : Nat}
    (hin : i * fs.sb.blockSize.toNat < inode.fileSize.toNat) (hi : ¬ i < inode.blockSizes.length) :
    inode.fragmentIndex ≠ SQUASHFS_INVALID_FRAG ∧
      i = inode.fileSize.toNat / fs.sb.blockSize.toNat := by
  have hbs := fs.sb.blockSize_pos
  have hcount := hgeo.count hfile
  unfold InodeRecord.blocksNeeded at hcount
  have hdiv : i ≤ inode.fileSize.toNat / fs.sb.blockSize.toNat :=
    (Nat.le_div_iff_mul_le hbs).mpr (Nat.le_of_lt hin)
  split at hcount
  · have hlast : (i + 1) * fs.sb.blockSize.toNat ≤
        inode.fileSize.toNat + fs.sb.blockSize.toNat - 1 := by
      rw [Nat.succ_mul]
      omega
    have := (Nat.le_div_iff_mul_le hbs).mpr hlast
    omega
  · rename_i hfrag
    exact ⟨hfrag, by omega⟩

/-- A block inside the file is one of its data blocks or the one behind them. -/
theorem index_le_of_inside (hgeo : inode.Geometry fs.sb) (hfile : inode.isRegularFile = true)
    {i : Nat} (hin : i * fs.sb.blockSize.toNat < inode.fileSize.toNat) :
    i < inode.blockSizes.length + 1 := by
  by_cases hi : i < inode.blockSizes.length
  · exact Nat.lt_succ_of_lt hi
  · obtain ⟨hfrag, rfl⟩ := tail_block hgeo hfile hin hi
    rw [tail_of_fragment hgeo hfile hfrag]
    exact Nat.lt_succ_self _

theorem hasFragment_iff (hfile : inode.isRegularFile = true) :
    inode.hasFragment = true ↔ inode.fragmentIndex ≠ SQUASHFS_INVALID_FRAG := by
  simp [Inode.hasFragment, hfile]

/-- **A logical block that is there is read**, and is the bytes it should be. -/
theorem readLogicalBlock_some (hgeo : inode.Geometry fs.sb) (hfile : inode.isRegularFile = true)
    {i : Nat} (hin : i * fs.sb.blockSize.toNat < inode.fileSize.toNat) {b : Bytes}
    (hb : fs.logicalBlock f inode i = some b) :
    b.length = fs.blockLen inode i ∧
      ∃ block, Asking.exec f (fs.readLogicalBlock inode i (blockOffsets inode)) = .ok block ∧
        block.asSlice = .ok b := by
  unfold logicalBlock at hb
  unfold readLogicalBlock
  split at hb
  · rename_i hi
    rw [if_pos hi]
    exact readFullBlock_some hgeo hfile hi hb
  · rename_i hi
    obtain ⟨hfrag, hlast⟩ := tail_block hgeo hfile hin hi
    rw [if_pos hfrag] at hb
    rw [if_neg hi, if_pos ((hasFragment_iff hfile).mpr hfrag)]
    obtain ⟨hlen, hread⟩ := readFragmentTail_some hgeo hfile hfrag hb
    refine ⟨?_, hread⟩
    have hmod := Nat.mod_lt inode.fileSize.toNat fs.sb.blockSize_pos
    rw [hlen, blockLen, hlast, ← Nat.mod_eq_sub_div_mul]
    exact (Nat.min_eq_right (Nat.le_of_lt hmod)).symm

/-- **Reading a logical block that is not there fails.** -/
theorem readLogicalBlock_none (hf : Tame f) (hgeo : inode.Geometry fs.sb)
    (hfile : inode.isRegularFile = true) {i : Nat} (hb : fs.logicalBlock f inode i = none) :
    ∃ e, Asking.exec f (fs.readLogicalBlock inode i (blockOffsets inode)) = .error (.err e) := by
  unfold logicalBlock at hb
  unfold readLogicalBlock
  split at hb
  · rename_i hi
    rw [if_pos hi]
    exact readFullBlock_none hf hgeo hfile hi hb
  · rename_i hi
    rw [if_neg hi]
    split at hb
    · rename_i hfrag
      rw [if_pos ((hasFragment_iff hfile).mpr hfrag)]
      exact readFragmentTail_none hf hgeo hfile hfrag hb
    · rename_i hfrag
      rw [if_neg (fun h => hfrag ((hasFragment_iff hfile).mp h))]
      exact ⟨_, rfl⟩

/-! ## The bytes of a file, by block -/

theorem fileBlocks_getElem? {i : Nat} (hin : i * fs.sb.blockSize.toNat < inode.fileSize.toNat) :
    (fs.fileBlocks f inode)[i]? =
      some ((fs.logicalBlock f inode i).getD (List.replicate (fs.blockLen inode i) 0)) := by
  have hbs := fs.sb.blockSize_pos
  have hi : i < (inode.fileSize.toNat + fs.sb.blockSize.toNat - 1) / fs.sb.blockSize.toNat := by
    rw [Nat.lt_iff_add_one_le, Nat.le_div_iff_mul_le hbs, Nat.succ_mul]
    omega
  unfold fileBlocks
  rw [List.getElem?_map, List.getElem?_range hi]
  rfl

/-- The blocks before one inside the file are full. -/
theorem fullBefore_fileBlocks (hgeo : inode.Geometry fs.sb) (hfile : inode.isRegularFile = true)
    {i : Nat} (hin : i * fs.sb.blockSize.toNat < inode.fileSize.toNat) :
    FullBefore fs.sb.blockSize.toNat i (fs.fileBlocks f inode) := by
  intro j b hj hb
  have hle : (j + 1) * fs.sb.blockSize.toNat ≤ i * fs.sb.blockSize.toNat :=
    Nat.mul_le_mul_right _ hj
  rw [Nat.succ_mul] at hle
  have hjin : j * fs.sb.blockSize.toNat < inode.fileSize.toNat := by omega
  have hfull : fs.blockLen inode j = fs.sb.blockSize.toNat := Nat.min_eq_left (by omega)
  rw [fileBlocks_getElem? hjin] at hb
  cases hb
  rcases hl : fs.logicalBlock f inode j with _ | b
  · rw [Option.getD_none, List.length_replicate, hfull]
  · rw [Option.getD_some, (readLogicalBlock_some hgeo hfile hjin hl).1, hfull]

/-- A window into a block that is there is that window of the file. -/
theorem fileBytes_window (hgeo : inode.Geometry fs.sb) (hfile : inode.isRegularFile = true)
    {i o k : Nat} (hin : i * fs.sb.blockSize.toNat < inode.fileSize.toNat) {b : Bytes}
    (hb : fs.logicalBlock f inode i = some b) (hk : o + k ≤ b.length) :
    ((fs.fileBytes f inode).drop (i * fs.sb.blockSize.toNat + o)).take k = (b.drop o).take k := by
  refine flatten_window (fullBefore_fileBlocks hgeo hfile hin) ?_ hk
  rw [fileBlocks_getElem? hin, hb, Option.getD_some]

/-! ## The loop -/

section Loop

variable {offset toRead written : Nat} {buf : Bytes}

/-- The bytes one turn of the loop copies. -/
def chunkLen (fs : Filesystem) (inode : Inode) (offset toRead written : Nat) : Nat :=
  min (fs.blockLen inode ((offset + written) / fs.sb.blockSize.toNat) -
    (offset + written) % fs.sb.blockSize.toNat) (toRead - written)

/-- A position inside the file lies inside its block. -/
theorem position_lt_blockLen {p : Nat} (hp : p < inode.fileSize.toNat) :
    p % fs.sb.blockSize.toNat < fs.blockLen inode (p / fs.sb.blockSize.toNat) := by
  have hmod := Nat.mod_lt p fs.sb.blockSize_pos
  have hsplit := Nat.mod_eq_sub_div_mul (x := p) (k := fs.sb.blockSize.toNat)
  have hle := Nat.div_mul_le_self p fs.sb.blockSize.toNat
  exact Nat.lt_min.mpr ⟨hmod, by omega⟩

theorem block_start_lt {p : Nat} (hp : p < inode.fileSize.toNat) :
    p / fs.sb.blockSize.toNat * fs.sb.blockSize.toNat < inode.fileSize.toNat :=
  Nat.lt_of_le_of_lt (Nat.div_mul_le_self p _) hp

theorem chunkLen_pos (hw : written < toRead) (hend : offset + toRead ≤ inode.fileSize.toNat) :
    0 < fs.chunkLen inode offset toRead written := by
  have hp : offset + written < inode.fileSize.toNat := by omega
  have hlt := fs.position_lt_blockLen hp
  exact Nat.lt_min.mpr ⟨by omega, by omega⟩

theorem chunkLen_le : fs.chunkLen inode offset toRead written ≤ toRead - written :=
  Nat.min_le_right _ _

/-- **A turn whose block is there** copies the file's next bytes. -/
theorem readChunk_ok (hgeo : inode.Geometry fs.sb) (hfile : inode.isRegularFile = true)
    (hw : written < toRead) (hend : offset + toRead ≤ inode.fileSize.toNat)
    (hbuf : toRead ≤ buf.length) {b : Bytes}
    (hb : fs.logicalBlock f inode ((offset + written) / fs.sb.blockSize.toNat) = some b) :
    (((fs.fileBytes f inode).drop (offset + written)).take
        (fs.chunkLen inode offset toRead written)).length =
        fs.chunkLen inode offset toRead written ∧
      Stateful.exec f (fs.readChunk inode (blockOffsets inode) offset toRead written) buf =
        (.ok (written + fs.chunkLen inode offset toRead written),
          paste buf written (((fs.fileBytes f inode).drop (offset + written)).take
            (fs.chunkLen inode offset toRead written))) := by
  have hsize := inode.fileSize.toNat_lt
  have hne : fs.sb.blockSize.toNat ≠ 0 := Nat.pos_iff_ne_zero.mp fs.sb.blockSize_pos
  have hp : offset + written < inode.fileSize.toNat := by omega
  have hin := fs.block_start_lt hp
  have hlt := fs.position_lt_blockLen hp
  have hpos : 0 < fs.chunkLen inode offset toRead written := chunkLen_pos hw hend
  have hle : fs.chunkLen inode offset toRead written ≤ toRead - written := chunkLen_le
  obtain ⟨hlen, block, hread, hslice⟩ := readLogicalBlock_some hgeo hfile hin hb
  have hfit : (offset + written) % fs.sb.blockSize.toNat +
      fs.chunkLen inode offset toRead written ≤ b.length := by
    have := Nat.min_le_left (fs.blockLen inode ((offset + written) / fs.sb.blockSize.toNat) -
      (offset + written) % fs.sb.blockSize.toNat) (toRead - written)
    unfold chunkLen
    omega
  have hwindow := fileBytes_window hgeo hfile hin hb hfit
  have hsrc := window_length hfit
  rw [Nat.div_add_mod'] at hwindow
  rw [← hwindow] at hsrc
  refine ⟨hsrc, ?_⟩
  unfold readChunk
  rw [Stateful.exec_lift_bind (add64_ok (by unfold wordSize; omega)),
    Stateful.exec_lift_bind (div64_ok hne), Stateful.exec_lift_bind (rem64_ok hne),
    Stateful.exec_ofAsking_bind hread, Stateful.exec_lift_bind hslice, if_neg (by omega)]
  have htake : min (b.length - (offset + written) % fs.sb.blockSize.toNat) (toRead - written) =
      fs.chunkLen inode offset toRead written := by rw [hlen]; rfl
  dsimp only
  rw [htake, Stateful.exec_lift_bind (slice_window_ok hfit), Stateful.exec_get_bind, ← hwindow,
    Stateful.exec_lift_bind (copyInto_ok (by omega)), Stateful.exec_set_bind, Stateful.exec_lift,
    add64_ok (by unfold wordSize; omega)]
  rfl

/-- **A turn whose block is not there** fails. -/
theorem readChunk_err (hf : Tame f) (hgeo : inode.Geometry fs.sb)
    (hfile : inode.isRegularFile = true) (hw : written < toRead)
    (hend : offset + toRead ≤ inode.fileSize.toNat)
    (hb : fs.logicalBlock f inode ((offset + written) / fs.sb.blockSize.toNat) = none) :
    ∃ e, Stateful.exec f (fs.readChunk inode (blockOffsets inode) offset toRead written) buf =
      (.error (.err e), buf) := by
  have hsize := inode.fileSize.toNat_lt
  have hne : fs.sb.blockSize.toNat ≠ 0 := Nat.pos_iff_ne_zero.mp fs.sb.blockSize_pos
  obtain ⟨e, he⟩ := readLogicalBlock_none hf hgeo hfile hb
  refine ⟨e, ?_⟩
  unfold readChunk
  rw [Stateful.exec_lift_bind (add64_ok (by unfold wordSize; omega)),
    Stateful.exec_lift_bind (div64_ok hne), Stateful.exec_lift_bind (rem64_ok hne),
    Stateful.exec_bind, Stateful.exec_ofAsking, he]

/-- A block still to come is behind the one just copied, which was copied to its end. -/
theorem overlaps_after_chunk {i : Nat} (hw : written < toRead)
    (hend : offset + toRead ≤ inode.fileSize.toNat)
    (hi : fs.Overlaps (offset + written) (offset + toRead) i)
    (hne : i ≠ (offset + written) / fs.sb.blockSize.toNat) :
    written + fs.chunkLen inode offset toRead written < toRead ∧
      fs.Overlaps (offset + (written + fs.chunkLen inode offset toRead written))
        (offset + toRead) i := by
  obtain ⟨hlo, hhi⟩ := hi
  have hbs := fs.sb.blockSize_pos
  have hge : (offset + written) / fs.sb.blockSize.toNat ≤ i :=
    Nat.le_of_lt_succ ((Nat.div_lt_iff_lt_mul hbs).mpr hhi)
  have hmul : ((offset + written) / fs.sb.blockSize.toNat + 1) * fs.sb.blockSize.toNat ≤
      i * fs.sb.blockSize.toNat := Nat.mul_le_mul_right _ (by omega)
  have hdm := Nat.div_add_mod' (offset + written) fs.sb.blockSize.toNat
  have hmod := Nat.mod_lt (offset + written) hbs
  rw [Nat.succ_mul] at hmul hhi
  have hchunk : fs.chunkLen inode offset toRead written =
      fs.sb.blockSize.toNat - (offset + written) % fs.sb.blockSize.toNat := by
    unfold chunkLen blockLen
    omega
  refine ⟨by omega, hlo, ?_⟩
  rw [Nat.succ_mul]
  omega

theorem Available.mono {lo lo' hi : Nat} (h : fs.Available f inode lo hi) (hle : lo ≤ lo') :
    fs.Available f inode lo' hi :=
  fun i hi => h i ⟨hi.1, Nat.lt_of_le_of_lt hle hi.2⟩

/-- The block at the position of a turn is one the read needs. -/
theorem overlaps_position (hw : written < toRead) :
    fs.Overlaps (offset + written) (offset + toRead)
      ((offset + written) / fs.sb.blockSize.toNat) := by
  have hbs := fs.sb.blockSize_pos
  have hle := Nat.div_mul_le_self (offset + written) fs.sb.blockSize.toNat
  exact ⟨by omega, Nat.lt_mul_of_div_lt (Nat.lt_succ_self _) hbs⟩

/-- **The loop reads what is asked for** when every block it needs is there. -/
theorem readLoop_ok (hgeo : inode.Geometry fs.sb) (hfile : inode.isRegularFile = true)
    {turns : Nat} (hw : written ≤ toRead) (hturns : toRead - written ≤ turns)
    (hend : offset + toRead ≤ inode.fileSize.toNat) (hbuf : toRead ≤ buf.length)
    (hav : fs.Available f inode (offset + written) (offset + toRead)) :
    (((fs.fileBytes f inode).drop (offset + written)).take (toRead - written)).length =
        toRead - written ∧
      Stateful.exec f (fs.readLoop inode (blockOffsets inode) offset toRead turns written) buf =
        (.ok toRead, paste buf written
          (((fs.fileBytes f inode).drop (offset + written)).take (toRead - written))) := by
  induction turns generalizing written buf with
  | zero =>
    have heq : written = toRead := by omega
    subst heq
    rw [readLoop, if_neg (Nat.lt_irrefl _), Nat.sub_self, List.take_zero, paste_nil]
    exact ⟨rfl, rfl⟩
  | succ turns ih =>
    unfold readLoop
    by_cases hlt : written < toRead
    · rw [if_pos hlt]
      obtain ⟨b, hb⟩ := Option.ne_none_iff_exists'.mp (hav _ (overlaps_position hlt))
      have hpos : 0 < fs.chunkLen inode offset toRead written := chunkLen_pos hlt hend
      have hle : fs.chunkLen inode offset toRead written ≤ toRead - written := chunkLen_le
      obtain ⟨hlen, hchunk⟩ := readChunk_ok hgeo hfile hlt hend hbuf hb
      generalize fs.chunkLen inode offset toRead written = n at *
      have hfit : written + (((fs.fileBytes f inode).drop (offset + written)).take n).length ≤
          buf.length := by omega
      have hrest : fs.Available f inode (offset + (written + n)) (offset + toRead) :=
        hav.mono (by omega)
      obtain ⟨hlen', hloop⟩ := ih (by omega) (by omega) (by rw [paste_length hfit]; exact hbuf) hrest
      rw [Stateful.exec_bind_ok hchunk, hloop]
      have hsum : n + (toRead - (written + n)) = toRead - written := by omega
      have hpaste : paste (paste _ _ _) _ (((fs.fileBytes f inode).drop
          (offset + (written + n))).take (toRead - (written + n))) = _ := paste_paste hfit
      rw [hlen, ← Nat.add_assoc, window_append, hsum] at hpaste
      rw [← Nat.add_assoc] at hlen' ⊢
      rw [hpaste, ← hsum, ← window_append, List.length_append, hlen, hlen']
      exact ⟨rfl, rfl⟩
    · have heq : written = toRead := by omega
      subst heq
      rw [if_neg hlt, Nat.sub_self, List.take_zero, paste_nil]
      exact ⟨rfl, rfl⟩

/-- **The loop fails** when a block it needs is not there. -/
theorem readLoop_err (hf : Tame f) (hgeo : inode.Geometry fs.sb)
    (hfile : inode.isRegularFile = true) {turns : Nat} (hw : written < toRead)
    (hturns : toRead - written ≤ turns) (hend : offset + toRead ≤ inode.fileSize.toNat)
    (hbuf : toRead ≤ buf.length) {i : Nat}
    (hi : fs.Overlaps (offset + written) (offset + toRead) i)
    (hnone : fs.logicalBlock f inode i = none) :
    ∃ e buf', Stateful.exec f (fs.readLoop inode (blockOffsets inode) offset toRead turns written)
      buf = (.error (.err e), buf') := by
  induction turns generalizing written buf with
  | zero => omega
  | succ turns ih =>
    unfold readLoop
    rw [if_pos hw]
    rcases hb : fs.logicalBlock f inode ((offset + written) / fs.sb.blockSize.toNat) with _ | b
    · obtain ⟨e, he⟩ : ∃ e, Stateful.exec f
          (fs.readChunk inode (blockOffsets inode) offset toRead written) buf =
            (.error (.err e), buf) := readChunk_err hf hgeo hfile hw hend hb
      exact ⟨e, buf, by rw [Stateful.exec_bind, he]⟩
    · have hne : i ≠ (offset + written) / fs.sb.blockSize.toNat := by
        rintro rfl
        rw [hb] at hnone
        cases hnone
      obtain ⟨hw', hi'⟩ := overlaps_after_chunk hw hend hi hne
      have hpos : 0 < fs.chunkLen inode offset toRead written := chunkLen_pos hw hend
      obtain ⟨hlen, hchunk⟩ := readChunk_ok hgeo hfile hw hend hbuf hb
      rw [Stateful.exec_bind_ok hchunk]
      exact ih hw' (by omega) (by rw [paste_length (by omega)]; exact hbuf) hi'

end Loop

/-! ## A read -/

section Read

variable {offset : UInt64} {buf : Bytes}

/-- A read at the end of the file, or into no buffer, gives nothing. -/
theorem readFile_nothing (hfile : inode.isRegularFile = true)
    (h : inode.fileSize ≤ offset ∨ buf = []) :
    Stateful.exec f (fs.readFile inode offset) buf = (.ok 0, buf) := by
  unfold readFile readFileWithOffsets
  rw [if_neg (not_not_intro hfile), Stateful.exec_get_bind, if_pos (by simpa using h)]
  rfl

/-- A read inside the file is the loop over the bytes there are. -/
theorem readFile_loop (hfile : inode.isRegularFile = true) (h : offset < inode.fileSize)
    (hbuf : buf ≠ []) :
    Stateful.exec f (fs.readFile inode offset) buf =
      Stateful.exec f (fs.readLoop inode (blockOffsets inode) offset.toNat
        (min buf.length (inode.fileSize.toNat - offset.toNat))
        (min buf.length (inode.fileSize.toNat - offset.toNat)) 0) buf := by
  have hlt := UInt64.lt_iff_toNat_lt.mp h
  have hguard : ¬ (inode.fileSize ≤ offset ∨ buf.isEmpty = true) := by
    rw [not_or, UInt64.le_iff_toNat_le, List.isEmpty_iff]
    exact ⟨by omega, hbuf⟩
  unfold readFile readFileWithOffsets
  rw [if_neg (not_not_intro hfile), Stateful.exec_get_bind, if_neg hguard,
    Stateful.exec_lift_bind (sub64_ok (Nat.le_of_lt hlt))]

/-- **A read whose blocks are there** gives the file's bytes and leaves the rest of the buffer. -/
theorem readFile_ok (hgeo : inode.Geometry fs.sb) (hfile : inode.isRegularFile = true)
    (h : offset < inode.fileSize) (hbuf : buf ≠ []) {n : Nat}
    (hn : n = min buf.length (inode.fileSize.toNat - offset.toNat))
    (hav : fs.Available f inode offset.toNat (offset.toNat + n)) :
    Stateful.exec f (fs.readFile inode offset) buf =
      (.ok n, ((fs.fileBytes f inode).drop offset.toNat).take n ++ buf.drop n) := by
  subst hn
  have hlt := UInt64.lt_iff_toNat_lt.mp h
  obtain ⟨hlen, hloop⟩ := @readLoop_ok f fs inode offset.toNat _ 0 buf hgeo hfile _
    (Nat.zero_le _) (Nat.le_refl _) (by omega) (by omega) hav
  rw [Nat.add_zero, Nat.sub_zero] at hlen hloop
  rw [readFile_loop hfile h hbuf, hloop, paste, hlen, List.take_zero, List.nil_append,
    Nat.zero_add]

/-- **A read that needs a block that is not there** fails. -/
theorem readFile_err (hf : Tame f) (hgeo : inode.Geometry fs.sb)
    (hfile : inode.isRegularFile = true) (h : offset < inode.fileSize) (hbuf : buf ≠ []) {n : Nat}
    (hn : n = min buf.length (inode.fileSize.toNat - offset.toNat))
    (hav : ¬ fs.Available f inode offset.toNat (offset.toNat + n)) :
    ∃ e, (Stateful.exec f (fs.readFile inode offset) buf).1 = .error (.err e) := by
  subst hn
  have hlt := UInt64.lt_iff_toNat_lt.mp h
  have hpos := List.length_pos_of_ne_nil hbuf
  simp only [Available, not_forall, not_not] at hav
  obtain ⟨i, hi, hnone⟩ := hav
  obtain ⟨e, buf', he⟩ := @readLoop_err f fs inode offset.toNat _ 0 buf hf hgeo hfile _
    (by omega) (Nat.le_refl _) (by omega) (by omega) i hi hnone
  exact ⟨e, by rw [readFile_loop hfile h hbuf]; exact congrArg Prod.fst he⟩

/-- **A read returns**: a count, or an error. -/
theorem returns_readFile (hf : Tame f) (hgeo : inode.Geometry fs.sb) (offset : UInt64)
    (buf : Bytes) : Returns (Stateful.exec f (fs.readFile inode offset) buf).1 := by
  by_cases hfile : inode.isRegularFile = true
  · by_cases hnil : inode.fileSize ≤ offset ∨ buf = []
    · rw [readFile_nothing hfile hnil]
      trivial
    · rw [not_or, UInt64.not_le] at hnil
      obtain ⟨hlt, hbuf⟩ := hnil
      by_cases hav : fs.Available f inode offset.toNat
          (offset.toNat + min buf.length (inode.fileSize.toNat - offset.toNat))
      · rw [readFile_ok hgeo hfile hlt hbuf rfl hav]
        trivial
      · obtain ⟨e, he⟩ := readFile_err hf hgeo hfile hlt hbuf rfl hav
        rw [he]
        trivial
  · unfold readFile readFileWithOffsets
    rw [if_pos hfile]
    trivial

end Read

/-- **A read gives exactly the file's bytes.** At the end of the file or into no buffer it gives
nothing; when every block it overlaps is there it fills the buffer from the file and leaves the
rest; when one is not there it fails. -/
theorem readFile_exact (codecs : Codecs) (fs : Filesystem) {inodeRef : UInt64} {inode : Inode}
    (hread : Asking.exec (fs.answers codecs) (fs.readInode inodeRef) = .ok inode)
    (hfile : inode.isRegularFile = true) (offset : UInt64) (buf : Bytes) :
    let f := fs.answers codecs
    let n := min buf.length (inode.fileSize.toNat - offset.toNat)
    let result := Stateful.exec f (fs.readFile inode offset) buf
    (inode.fileSize ≤ offset ∨ buf = [] → result = (.ok 0, buf)) ∧
      (offset < inode.fileSize → buf ≠ [] →
        (fs.Available f inode offset.toNat (offset.toNat + n) →
          result = (.ok n, ((fs.fileBytes f inode).drop offset.toNat).take n ++ buf.drop n)) ∧
        (¬ fs.Available f inode offset.toNat (offset.toNat + n) →
          ∃ e, result.1 = .error (.err e))) := by
  have hf := fs.tame_answers codecs
  have hgeo := Inode.geometry_of_read hf hread
  exact ⟨readFile_nothing hfile, fun h hbuf =>
    ⟨readFile_ok hgeo hfile h hbuf rfl, readFile_err hf hgeo hfile h hbuf rfl⟩⟩

/-- The record of a file of a stored block, a hole, another stored block, and a tail in a
fragment. -/
def mixedRecord : InodeRecord := .basicFile 150 0 2 12293 [0x1001000, 0, 0x1001000]

def mixedFile : Inode := mixedRecord.toInode ⟨0x1A4, 0, 0, 0, 2⟩

/-- Its inode table, the block of its fragment, and its two stored blocks. -/
def mixedBytes : Bytes :=
  PlainImage.sample.superblock.encode ++
    (storeRaw (mixedRecord.encode ⟨0x1A4, 0, 0, 0, 2⟩) ++ ([1, 2, 3, 4, 5, 6, 7, 8] ++
      (List.replicate 4096 0x41 ++ List.replicate 4096 0x42)))

theorem mixedBytes_lt : mixedBytes.length < wordSize := by
  simp only [mixedBytes, List.length_append, Superblock.encode_length, storeRaw_length,
    List.length_replicate]
  decide

/-- An image with that file. -/
def mixed : Filesystem :=
  { sample with
    dev := Device.ofBytes mixedBytes mixedBytes_lt
    fragments := [⟨142, 0x1000008⟩] }

/-- The same, but for the fragment. -/
def unfragmented : Filesystem := { mixed with fragments := [] }

theorem mixed_read : Asking.exec (mixed.answers .none) (mixed.readInode 0) = .ok mixedFile := by
  decide +kernel

/-- A read into the hole, one into the tail, and one of a tail that is not there. -/
theorem readFile_exact_sample :
    Stateful.exec (mixed.answers .none) (mixed.readFile mixedFile 4094) [0, 0, 7, 7] =
      (.ok 4, [0x41, 0x41, 0, 0]) ∧
    Stateful.exec (mixed.answers .none) (mixed.readFile mixedFile 12286)
      [0, 0, 0, 0, 0, 0, 0, 9] = (.ok 7, [0x42, 0x42, 3, 4, 5, 6, 7, 9]) ∧
    ∃ e, (Stateful.exec (unfragmented.answers .none) (unfragmented.readFile mixedFile 12286)
      [0, 0, 0]).1 = .error (.err e) := by
  have hblocks : ∀ i < 4, mixed.logicalBlock (mixed.answers .none) mixedFile i ≠ none := by
    decide +kernel
  have hav : ∀ lo hi, hi ≤ 12293 →
      mixed.Available (mixed.answers .none) mixedFile lo hi := by
    intro lo hi hle i hin
    have hin : i * 4096 < hi := hin.1
    exact hblocks i (by omega)
  have hexact := readFile_exact .none mixed mixed_read rfl
  refine ⟨?_, ?_, ?_⟩
  · exact (((hexact 4094 [0, 0, 7, 7]).2 (by decide) (by decide)).1
      (hav _ _ (by decide))).trans (by decide +kernel)
  · exact (((hexact 12286 [0, 0, 0, 0, 0, 0, 0, 9]).2 (by decide) (by decide)).1
      (hav _ _ (by decide))).trans (by decide +kernel)
  · have hread : Asking.exec (unfragmented.answers .none) (unfragmented.readInode 0) =
        .ok mixedFile := by decide +kernel
    refine ((readFile_exact .none unfragmented hread rfl 12286 [0, 0, 0]).2
      (by decide) (by decide)).2 fun hav => ?_
    exact hav 3 ⟨by decide, by decide⟩ (by decide +kernel)

end Filesystem

end Squashfs
