import Squashfs.File

/-!
# Stored files are read back

About `read_file` (`src/fs.rs:606-741`) over what a writer laid out. `StoredData` says that a data
or fragment block lies on the device, raw or compressed, and `StoredFile` that a file's contents do:
each full block at the offset its predecessors leave it at, a block of zeros possibly not at all,
and the tail somewhere in a fragment block.

**`readFile_stored`**: every read of a stored file gives the window of its contents that was asked
for, wherever the window lies and however the blocks are stored.
-/

namespace Squashfs

open Foundation

/-- `contents` is stored at `abs` under a size word: raw, or in a form the codec decompresses to it
within `maxOut` bytes. -/
inductive StoredData (codecs : Codecs) (dev : Device) (sb : Superblock) (comp : Compressor)
    (abs maxOut : Nat) : UInt32 → Bytes → Prop
  | raw {sizeWord : UInt32} (contents : Bytes)
      (hsize : (dataOnDiskSize sizeWord).toNat = contents.length)
      (hraw : dataIsCompressed sizeWord = false) (hle : contents.length ≤ sb.blockSize.toNat)
      (hfit : contents.length ≤ maxOut) (hread : dev.read abs contents.length = .ok contents) :
      StoredData codecs dev sb comp abs maxOut sizeWord contents
  | compressed {sizeWord : UInt32} (contents payload : Bytes)
      (hsize : (dataOnDiskSize sizeWord).toNat = payload.length)
      (hcomp : dataIsCompressed sizeWord = true) (hle : payload.length ≤ sb.blockSize.toNat)
      (hread : dev.read abs payload.length = .ok payload)
      (hcodec : decompress codecs comp payload maxOut = .ok contents) :
      StoredData codecs dev sb comp abs maxOut sizeWord contents

namespace StoredData

variable {codecs : Codecs} {dev : Device} {sb : Superblock} {comp : Compressor}
  {abs maxOut : Nat} {sizeWord : UInt32} {contents : Bytes}

/-- A stored block is decoded. -/
theorem decode (h : StoredData codecs dev sb comp abs maxOut sizeWord contents) :
    decodeDataBlock codecs dev sb comp abs sizeWord maxOut = .ok contents := by
  unfold decodeDataBlock
  cases h with
  | raw hsize hraw hle hfit hread =>
    dsimp only
    rw [hsize, if_neg (Nat.not_lt_of_le hle), hread, ok_bind, hraw, if_neg Bool.false_ne_true,
      if_neg (Nat.not_lt_of_le hfit)]
    rfl
  | compressed payload hsize hcomp hle hread hcodec =>
    dsimp only
    rw [hsize, if_neg (Nat.not_lt_of_le hle), hread, ok_bind, if_pos hcomp, hcodec]

/-- A block that takes bytes on the device lies inside it. -/
theorem abs_lt (h : StoredData codecs dev sb comp abs maxOut sizeWord contents)
    (hne : (dataOnDiskSize sizeWord).toNat ≠ 0) : abs < wordSize := by
  have hdev := dev.size_lt
  cases h with
  | raw hsize hraw hle hfit hread =>
    have hend := dev.le_of_read hread (by omega)
    omega
  | compressed payload hsize hcomp hle hread hcodec =>
    have hend := dev.le_of_read hread (by omega)
    omega

end StoredData

namespace Filesystem

/-- The contents of a file are stored where its inode says. -/
structure StoredFile (codecs : Codecs) (fs : Filesystem) (inode : Inode) (contents : Bytes) :
    Prop where
  size : inode.fileSize.toNat = contents.length
  /-- A full block: zeros, which may be left out, or stored after the blocks before it. -/
  blocks : ∀ i sizeWord, inode.blockSizes[i]? = some sizeWord →
    let block := chunk fs.sb.blockSize.toNat contents i
    sizeWord = 0 ∧ block = List.replicate block.length 0 ∨
      (dataOnDiskSize sizeWord).toNat ≠ 0 ∧
        StoredData codecs fs.dev fs.sb fs.comp (inode.blocksStart.toNat +
          ((inode.blockSizes.take i).map fun size => (dataOnDiskSize size).toNat).sum)
          block.length sizeWord block
  /-- What the full blocks leave over is in a fragment block. -/
  tail : inode.blockSizes.length * fs.sb.blockSize.toNat < contents.length →
    inode.fragmentIndex ≠ SQUASHFS_INVALID_FRAG ∧
      ∃ frag packed before after, fs.fragments[inode.fragmentIndex.toNat]? = some frag ∧
        StoredData codecs fs.dev fs.sb fs.comp frag.start.toNat fs.sb.blockSize.toNat frag.size
          packed ∧
        packed = before ++ chunk fs.sb.blockSize.toNat contents inode.blockSizes.length ++ after ∧
        before.length = inode.fragmentOffset.toNat

section Stored

variable {codecs : Codecs} {fs : Filesystem} {inode : Inode} {contents : Bytes}

theorem StoredFile.blockLen_eq (h : fs.StoredFile codecs inode contents) (i : Nat) :
    fs.blockLen inode i = (chunk fs.sb.blockSize.toNat contents i).length := by
  rw [chunk_length, blockLen, h.size]

/-- A stored full block is the file's. -/
theorem StoredFile.dataBlock_eq (h : fs.StoredFile codecs inode contents) {i : Nat}
    (hi : i < inode.blockSizes.length) :
    fs.dataBlock (fs.answers codecs) inode i = some (chunk fs.sb.blockSize.toNat contents i) := by
  have hget := List.getElem?_eq_getElem hi
  have hlen := h.blockLen_eq i
  unfold dataBlock
  rw [hget, Option.bind_eq_bind, Option.bind_some]
  rcases h.blocks i _ hget with ⟨hzero, hzeros⟩ | ⟨hne, hstored⟩
  · have hnone : (dataOnDiskSize inode.blockSizes[i]).toNat = 0 := by
      rw [hzero]
      rfl
    rw [if_pos hnone, hlen, ← hzeros]
  · have hoffset : blockOffset inode i = inode.blocksStart.toNat +
        ((inode.blockSizes.take i).map fun size => (dataOnDiskSize size).toNat).sum := by
      have hlt := hstored.abs_lt hne
      exact Nat.min_eq_left (Nat.le_sub_one_of_lt hlt)
    have hanswer : fs.answers codecs (.data (blockOffset inode i) inode.blockSizes[i]
        (fs.blockLen inode i)) = .ok (chunk fs.sb.blockSize.toNat contents i) := by
      rw [hoffset, hlen]
      exact hstored.decode
    rw [if_neg hne, hanswer]
    exact if_pos hlen.symm

/-- A stored tail is the file's. -/
theorem StoredFile.tailBlock_eq (h : fs.StoredFile codecs inode contents)
    (hgeo : inode.Geometry fs.sb) (hfile : inode.isRegularFile = true)
    (hin : inode.blockSizes.length * fs.sb.blockSize.toNat < contents.length) :
    fs.tailBlock (fs.answers codecs) inode =
      some (chunk fs.sb.blockSize.toNat contents inode.blockSizes.length) := by
  obtain ⟨hfrag, frag, packed, before, after, hget, hstored, hpacked, hplace⟩ := h.tail hin
  have hlen : (chunk fs.sb.blockSize.toNat contents inode.blockSizes.length).length =
      inode.fileSize.toNat % fs.sb.blockSize.toNat := by
    have hmod := Nat.mod_lt inode.fileSize.toNat fs.sb.blockSize_pos
    rw [chunk_length, tail_of_fragment hgeo hfile hfrag, ← h.size, ← Nat.mod_eq_sub_div_mul]
    exact Nat.min_eq_right (Nat.le_of_lt hmod)
  have hanswer : fs.answers codecs (.data frag.start.toNat frag.size fs.sb.blockSize.toNat) =
      .ok packed := hstored.decode
  unfold tailBlock
  rw [hget, Option.bind_eq_bind, Option.bind_some, hanswer]
  show (if _ ≤ packed.length then some ((packed.drop _).take _) else none) = _
  rw [hpacked, ← hplace, ← hlen, if_pos (by simp only [List.length_append]; omega),
    List.append_assoc, List.drop_left, List.take_left]

/-- **Every block of a stored file is there.** -/
theorem StoredFile.logicalBlock_eq (h : fs.StoredFile codecs inode contents)
    (hgeo : inode.Geometry fs.sb) (hfile : inode.isRegularFile = true) {i : Nat}
    (hin : i * fs.sb.blockSize.toNat < inode.fileSize.toNat) :
    fs.logicalBlock (fs.answers codecs) inode i =
      some (chunk fs.sb.blockSize.toNat contents i) := by
  unfold logicalBlock
  by_cases hi : i < inode.blockSizes.length
  · rw [if_pos hi]
    exact h.dataBlock_eq hi
  · obtain ⟨hfrag, hlast⟩ := tail_block hgeo hfile hin hi
    rw [← tail_of_fragment hgeo hfile hfrag] at hlast
    subst hlast
    rw [if_neg hi, if_pos hfrag]
    exact h.tailBlock_eq hgeo hfile (h.size ▸ hin)

/-- **The bytes of a stored file are its contents.** -/
theorem StoredFile.fileBytes_eq (h : fs.StoredFile codecs inode contents)
    (hgeo : inode.Geometry fs.sb) (hfile : inode.isRegularFile = true) :
    fs.fileBytes (fs.answers codecs) inode = contents := by
  have hbs := fs.sb.blockSize_pos
  have hblocks : fs.fileBlocks (fs.answers codecs) inode =
      (List.range ((contents.length + fs.sb.blockSize.toNat - 1) / fs.sb.blockSize.toNat)).map
        (chunk fs.sb.blockSize.toNat contents) := by
    unfold fileBlocks
    rw [h.size]
    refine List.map_congr_left fun i hi => ?_
    have hi := List.mem_range.mp hi
    rw [Nat.lt_iff_add_one_le, Nat.le_div_iff_mul_le hbs, Nat.succ_mul] at hi
    rw [h.logicalBlock_eq hgeo hfile (by rw [h.size]; omega), Option.getD_some]
  rw [fileBytes, hblocks, flatten_all_chunks hbs]

/-- **A stored file is read back**: every read gives the window of the contents it asks for, shorter
only at the end of the file, and leaves the rest of its buffer. -/
theorem readFile_stored (hgeo : inode.Geometry fs.sb) (hfile : inode.isRegularFile = true)
    (h : fs.StoredFile codecs inode contents) (offset : UInt64) (buf : Bytes) :
    let window := (contents.drop offset.toNat).take buf.length
    Stateful.exec (fs.answers codecs) (fs.readFile inode offset) buf =
      (.ok window.length, window ++ buf.drop window.length) := by
  intro window
  have hlen : window.length = min buf.length (contents.length - offset.toNat) := by
    rw [List.length_take, List.length_drop]
  by_cases hend : inode.fileSize ≤ offset ∨ buf = []
  · have hzero : window.length = 0 := by
      rw [UInt64.le_iff_toNat_le, h.size] at hend
      rcases hend with hend | rfl
      · omega
      · rfl
    rw [readFile_nothing hfile hend, hzero, List.length_eq_zero_iff.mp hzero]
    rfl
  · rw [not_or, UInt64.not_le] at hend
    have hlt := UInt64.lt_iff_toNat_lt.mp hend.1
    have hav : fs.Available (fs.answers codecs) inode offset.toNat
        (offset.toNat + window.length) := by
      intro i hi
      have hin : i * fs.sb.blockSize.toNat < inode.fileSize.toNat := by
        have := hi.1
        rw [h.size] at hlt ⊢
        omega
      rw [h.logicalBlock_eq hgeo hfile hin]
      exact Option.some_ne_none _
    rw [readFile_ok hgeo hfile hend.1 hend.2 (by rw [hlen, h.size]) hav,
      h.fileBytes_eq hgeo hfile]
    have htake : (contents.drop offset.toNat).take window.length = window := by
      rw [List.length_take, ← List.take_eq_take_min]
    rw [htake]

end Stored

end Filesystem

end Squashfs
