import Squashfs.Foundation.Blocks
import Squashfs.Image

/-!
# The layout of an image

About `validate_against_device` (`src/superblock.rs:142-245`), which refuses a superblock whose
sizes and table starts do not fit the device or each other. A `SoundLayout` is what a writer lays
out: the tables in order, a chain of metadata blocks as the inode table, the inode records in their
contents, and the root's block among them.

**`validate_soundLayout`**: no sound layout is refused. The bound on `inode_count` goes by counting:
the records take sixteen bytes each of at most 8192 a block, and a block takes three bytes of the
table at least.
-/

namespace Squashfs

open Foundation

namespace Superblock

/-! ## The nearest start -/

section NearestPast

variable {t s : UInt64} {starts : List UInt64} {n : Nat}

theorem lt_nearestPast (ht : t.toNat < wordSize - 1) : t.toNat < nearestPast t starts := by
  unfold nearestPast
  rcases hmin : ((starts.filter fun s => s != NO_TABLE && t < s).map UInt64.toNat).min? with _ | m
  · exact ht
  · obtain ⟨hmem, -⟩ := List.min?_eq_some_iff.mp hmin
    obtain ⟨s, hs, rfl⟩ := List.mem_map.mp hmem
    obtain ⟨-, hs⟩ := List.mem_filter.mp hs
    rw [Bool.and_eq_true, decide_eq_true_eq] at hs
    exact UInt64.lt_iff_toNat_lt.mp hs.2

theorem nearestPast_le (hs : s ∈ starts) (hne : s ≠ NO_TABLE) (hlt : t < s) :
    nearestPast t starts ≤ s.toNat := by
  have hmem : s.toNat ∈ (starts.filter fun s => s != NO_TABLE && t < s).map UInt64.toNat := by
    refine List.mem_map.mpr ⟨s, List.mem_filter.mpr ⟨hs, ?_⟩, rfl⟩
    rw [Bool.and_eq_true, decide_eq_true_eq, bne_iff_ne]
    exact ⟨hne, hlt⟩
  unfold nearestPast
  rcases hmin : ((starts.filter fun s => s != NO_TABLE && t < s).map UInt64.toNat).min? with _ | m
  · rw [List.min?_eq_none_iff.mp hmin] at hmem
    exact absurd hmem List.not_mem_nil
  · exact (List.min?_eq_some_iff.mp hmin).2 _ hmem

theorem le_nearestPast (hn : n < wordSize)
    (h : ∀ s ∈ starts, s ≠ NO_TABLE → t < s → n ≤ s.toNat) : n ≤ nearestPast t starts := by
  unfold nearestPast
  rcases hmin : ((starts.filter fun s => s != NO_TABLE && t < s).map UInt64.toNat).min? with _ | m
  · exact Nat.le_sub_one_of_lt hn
  · obtain ⟨hmem, -⟩ := List.min?_eq_some_iff.mp hmin
    obtain ⟨s, hs, rfl⟩ := List.mem_map.mp hmem
    obtain ⟨hs, hpast⟩ := List.mem_filter.mp hs
    rw [Bool.and_eq_true, decide_eq_true_eq, bne_iff_ne] at hpast
    exact h s hs hpast.1 hpast.2

end NearestPast

/-! ## What is checked -/

/-- The tables present start one after the other. -/
theorem inOrder_iff {prev : UInt64} {ts : List UInt64} :
    inOrder prev ts = true ↔ (prev :: ts.filter (· ≠ NO_TABLE)).Pairwise (· ≤ ·) := by
  induction ts generalizing prev with
  | nil => simp [inOrder]
  | cons t ts ih =>
    unfold inOrder
    by_cases habsent : t = NO_TABLE
    · rw [if_pos habsent, ih, List.filter_cons_of_neg (by simpa using habsent)]
    · rw [if_neg habsent, List.filter_cons_of_pos (by simpa using habsent)]
      by_cases hlt : t < prev
      · rw [if_pos hlt]
        refine ⟨nofun, fun h => ?_⟩
        have hle := List.rel_of_pairwise_cons h List.mem_cons_self
        exact absurd hlt (UInt64.not_lt.mpr hle)
      · rw [if_neg hlt, ih]
        have hle := UInt64.not_lt.mp hlt
        refine ⟨fun h => List.pairwise_cons.mpr ⟨fun s hs => ?_, h⟩, List.Pairwise.of_cons⟩
        rcases List.mem_cons.mp hs with rfl | hs
        · exact hle
        · exact UInt64.le_trans hle (List.rel_of_pairwise_cons h hs)

/-- The tables after the directory table, present or not. -/
def laterTables (sb : Superblock) : List UInt64 :=
  [sb.fragmentTableStart, sb.exportTableStart, sb.idTableStart, sb.xattrIdTableStart]

/-- What `validateAgainstDevice` checks. -/
structure Validated (sb : Superblock) (deviceSize : Nat) : Prop where
  size : sb.bytesUsed.toNat ≤ deviceSize
  required : ∀ t ∈ [sb.inodeTableStart, sb.directoryTableStart, sb.idTableStart],
    sb.inImage t = true
  optional : ∀ t ∈ [sb.fragmentTableStart, sb.exportTableStart, sb.xattrIdTableStart],
    t = NO_TABLE ∨ sb.inImage t = true
  ordered : sb.inodeTableStart < sb.directoryTableStart
  later : (sb.directoryTableStart :: sb.laterTables.filter (· ≠ NO_TABLE)).Pairwise (· ≤ ·)
  root : sb.inodeTableStart.toNat + (sb.rootInodeRef >>> 16).toNat < sb.directoryTableStart.toNat
  room : sb.inodeCount.toNat ≤ saturatingMul ((sb.inodeTableEnd - sb.inodeTableStart.toNat) / 3)
    (METADATA_SIZE / MIN_INODE_SIZE)

theorem root_iff {a b : Nat} {t : UInt64} :
    (checkedAdd a b).all (fun s => t.toNat ≤ s) = true ↔ ¬ a + b < t.toNat := by
  have ht := t.toNat_lt
  unfold checkedAdd wordSize
  split
  · simp
  · simp
    omega

theorem validateAgainstDevice_eq_ok {sb : Superblock} {deviceSize : Nat} :
    sb.validateAgainstDevice deviceSize = .ok () ↔ sb.Validated deviceSize := by
  unfold validateAgainstDevice
  rw [ite_eq_iff, ite_eq_iff, ite_eq_iff, ite_eq_iff, ite_eq_iff, ite_eq_iff, ite_eq_iff]
  simp only [reduceCtorEq, and_false, false_or, not_not, Nat.not_lt, UInt64.not_le, pure_eq_ok,
    and_true, root_iff, inOrder_iff, List.all_eq_true, Bool.or_eq_true, beq_iff_eq]
  constructor
  · rintro ⟨hsize, hrequired, hoptional, hordered, hlater, hroot, hroom⟩
    exact ⟨hsize, hrequired, hoptional, hordered, hlater, Nat.lt_of_not_le hroot, hroom⟩
  · intro h
    exact ⟨h.size, h.required, h.optional, h.ordered, h.later, Nat.not_le_of_lt h.root, h.room⟩

end Superblock

/-! ## A sound layout -/

/-- A metadata block as it is stored, and what its payload decompresses to, by whichever codec. -/
structure MetaBlock where
  header : UInt16
  payload : Bytes
  contents : Bytes
  sized : (header &&& SIZE_MASK).toNat = payload.length
  nonempty : payload ≠ []
  bounded : contents.length ≤ METADATA_SIZE
  deriving Repr

namespace MetaBlock

def encode (b : MetaBlock) : Bytes := u16Bytes b.header ++ b.payload

theorem three_le_length (b : MetaBlock) : 3 ≤ b.encode.length := by
  have hpos := List.length_pos_of_ne_nil b.nonempty
  rw [encode, List.length_append, u16Bytes_length]
  omega

theorem mul_three_le (blocks : List MetaBlock) :
    blocks.length * 3 ≤ (blocks.flatMap encode).length := by
  induction blocks with
  | nil => exact Nat.le_refl _
  | cons b blocks ih =>
    have hb := b.three_le_length
    rw [List.flatMap_cons, List.length_append, List.length_cons]
    omega

theorem contents_le (blocks : List MetaBlock) :
    (blocks.flatMap contents).length ≤ blocks.length * METADATA_SIZE := by
  induction blocks with
  | nil => exact Nat.le_refl _
  | cons b blocks ih =>
    have hb := b.bounded
    rw [List.flatMap_cons, List.length_append, List.length_cons, Nat.succ_mul]
    omega

end MetaBlock

/-- A sound layout: the tables in order below `bytes_used`, a chain of metadata blocks as the
inode table, `inode_count` records in their contents, and the root's block among them. -/
structure SoundLayout (dev : Device) (sb : Superblock) where
  size : sb.bytesUsed.toNat ≤ dev.sizeBytes
  afterSuperblock : SUPERBLOCK_SIZE ≤ sb.inodeTableStart.toNat
  ids : sb.idTableStart ≠ NO_TABLE
  ordered : (sb.inodeTableStart :: sb.directoryTableStart ::
    sb.laterTables.filter (· ≠ NO_TABLE)).Pairwise (· ≤ ·)
  below : ∀ t ∈ sb.directoryTableStart :: sb.laterTables.filter (· ≠ NO_TABLE), t < sb.bytesUsed
  /-- The inode table. -/
  blocks : List MetaBlock
  stored : dev.read sb.inodeTableStart.toNat
    (sb.directoryTableStart.toNat - sb.inodeTableStart.toNat) = .ok (blocks.flatMap MetaBlock.encode)
  /-- The blocks before the root's. -/
  before : List MetaBlock
  root : MetaBlock
  after : List MetaBlock
  root_mem : blocks = before ++ root :: after
  root_ref : (sb.rootInodeRef >>> 16).toNat = (before.flatMap MetaBlock.encode).length
  /-- Where each inode record starts in the blocks' contents, and its length. -/
  recordStart : Fin sb.inodeCount.toNat → Nat
  recordLength : Fin sb.inodeCount.toNat → Nat
  record_length : ∀ i, MIN_INODE_SIZE ≤ recordLength i
  record_inside : ∀ i, recordStart i + recordLength i ≤ (blocks.flatMap MetaBlock.contents).length
  record_disjoint : ∀ i j, i ≠ j → recordStart i + recordLength i ≤ recordStart j ∨
    recordStart j + recordLength j ≤ recordStart i

namespace SoundLayout

variable {dev : Device} {sb : Superblock} (layout : SoundLayout dev sb)
include layout

/-- The stored blocks fill the inode table. -/
theorem extent_eq : (layout.blocks.flatMap MetaBlock.encode).length =
    sb.directoryTableStart.toNat - sb.inodeTableStart.toNat :=
  dev.length_of_read layout.stored

/-- The root's block lies in the inode table. -/
theorem root_lt : sb.inodeTableStart.toNat + (sb.rootInodeRef >>> 16).toNat <
    sb.directoryTableStart.toNat := by
  have hextent := layout.extent_eq
  have hroot := layout.root.three_le_length
  rw [layout.root_mem, List.flatMap_append, List.flatMap_cons, List.length_append,
    List.length_append, ← layout.root_ref] at hextent
  omega

theorem table_lt : sb.inodeTableStart < sb.directoryTableStart :=
  UInt64.lt_iff_toNat_lt.mpr (Nat.lt_of_le_of_lt (Nat.le_add_right _ _) layout.root_lt)

/-- **The inode table ends where the directory table starts**, whichever tables are absent. -/
theorem inodeTableEnd_eq : sb.inodeTableEnd = sb.directoryTableStart.toNat := by
  have hbelow := layout.below
  obtain ⟨-, hordered⟩ := List.pairwise_cons.mp layout.ordered
  have hlater : ∀ t ∈ sb.laterTables, t ≠ NO_TABLE → sb.directoryTableStart ≤ t := by
    intro t ht hne
    exact List.rel_of_pairwise_cons hordered
      (List.mem_filter.mpr ⟨ht, decide_eq_true hne⟩)
  have hused : sb.directoryTableStart < sb.bytesUsed := hbelow _ List.mem_cons_self
  refine Nat.le_antisymm ?_ ?_
  · refine Superblock.nearestPast_le List.mem_cons_self ?_ layout.table_lt
    intro habsent
    rw [habsent] at hused
    exact absurd (UInt64.lt_iff_toNat_lt.mp hused)
      (Nat.not_lt.mpr (Nat.le_of_lt_succ sb.bytesUsed.toNat_lt))
  · refine Superblock.le_nearestPast sb.directoryTableStart.toNat_lt fun t ht hne _ => ?_
    rw [← UInt64.le_iff_toNat_le]
    rcases List.mem_cons.mp ht with rfl | ht
    · exact UInt64.le_refl _
    · rw [show [sb.fragmentTableStart, sb.exportTableStart, sb.idTableStart, sb.xattrIdTableStart,
        sb.bytesUsed] = sb.laterTables ++ [sb.bytesUsed] from rfl] at ht
      rcases List.mem_append.mp ht with ht | ht
      · exact hlater t ht hne
      · rw [List.mem_singleton.mp ht]
        exact UInt64.le_of_lt hused

/-- **The inodes have room**: the bound `inode_count` is held to is no tighter than the sixteen
bytes of at most 8192 a block that each record takes. -/
theorem inodes_fit : sb.inodeCount.toNat ≤
    (sb.directoryTableStart.toNat - sb.inodeTableStart.toNat) / 3 *
      (METADATA_SIZE / MIN_INODE_SIZE) := by
  have hrecords := windows_fit layout.record_length layout.record_inside layout.record_disjoint
  have hcontents := MetaBlock.contents_le layout.blocks
  have hblocks := MetaBlock.mul_three_le layout.blocks
  rw [layout.extent_eq] at hblocks
  have hcount : layout.blocks.length ≤
      (sb.directoryTableStart.toNat - sb.inodeTableStart.toNat) / 3 := by omega
  have hper : METADATA_SIZE / MIN_INODE_SIZE = 512 := by decide
  calc sb.inodeCount.toNat ≤ layout.blocks.length * 512 := by
        unfold MIN_INODE_SIZE METADATA_SIZE at *
        omega
    _ ≤ _ := by
        rw [hper]
        exact Nat.mul_le_mul_right _ hcount

/-- What is checked holds of a sound layout. -/
theorem validated : sb.Validated dev.sizeBytes := by
  obtain ⟨hinode, hordered⟩ := List.pairwise_cons.mp layout.ordered
  have hstart : ∀ t, sb.inodeTableStart ≤ t → t < sb.bytesUsed → sb.inImage t = true := by
    intro t hle hlt
    refine decide_eq_true ⟨?_, hlt⟩
    exact Nat.le_trans layout.afterSuperblock (UInt64.le_iff_toNat_le.mp hle)
  have hpresent : ∀ t ∈ sb.laterTables, t ≠ NO_TABLE → sb.inImage t = true := by
    intro t ht hne
    have hmem : t ∈ sb.directoryTableStart :: sb.laterTables.filter (· ≠ NO_TABLE) :=
      List.mem_cons_of_mem _ (List.mem_filter.mpr ⟨ht, decide_eq_true hne⟩)
    exact hstart t (hinode t hmem) (layout.below t hmem)
  have hdirectory := hstart _ (hinode _ List.mem_cons_self) (layout.below _ List.mem_cons_self)
  have htable : sb.inImage sb.inodeTableStart = true :=
    hstart _ (UInt64.le_refl _)
      (UInt64.lt_trans layout.table_lt (layout.below _ List.mem_cons_self))
  refine ⟨layout.size, ?_, ?_, layout.table_lt, hordered, layout.root_lt, ?_⟩
  · intro t ht
    simp only [List.mem_cons, List.not_mem_nil, or_false] at ht
    rcases ht with rfl | rfl | rfl
    · exact htable
    · exact hdirectory
    · exact hpresent _ (by simp [Superblock.laterTables]) layout.ids
  · intro t ht
    refine or_iff_not_imp_left.mpr fun hne => hpresent t ?_ hne
    simp only [List.mem_cons, List.not_mem_nil, or_false] at ht
    rcases ht with rfl | rfl | rfl <;> simp [Superblock.laterTables]
  · have hfit := layout.inodes_fit
    have hcount := sb.inodeCount.toNat_lt
    rw [layout.inodeTableEnd_eq]
    unfold saturatingMul wordSize
    omega

end SoundLayout

/-- **No sound layout is refused**, and its inodes are no more than the table's extent allows. -/
theorem validate_soundLayout {dev : Device} {sb : Superblock} (layout : SoundLayout dev sb) :
    sb.validateAgainstDevice dev.sizeBytes = .ok () ∧
      sb.inodeCount.toNat ≤ (sb.inodeTableEnd - sb.inodeTableStart.toNat) / 3 *
        (METADATA_SIZE / MIN_INODE_SIZE) := by
  rw [layout.inodeTableEnd_eq]
  exact ⟨Superblock.validateAgainstDevice_eq_ok.mpr layout.validated, layout.inodes_fit⟩

/-- The sample's layout: one block of inodes, and the root's record first in it. -/
def PlainImage.sampleLayout :
    SoundLayout (Device.ofBytes sample.bytes sample_lt) sample.superblock where
  size := by decide +kernel
  afterSuperblock := by decide +kernel
  ids := by decide +kernel
  ordered := by decide +kernel
  below := by
    have hall : (sample.superblock.directoryTableStart ::
        sample.superblock.laterTables.filter (· ≠ NO_TABLE)).all
          (· < sample.superblock.bytesUsed) = true := by decide +kernel
    exact fun t ht => of_decide_eq_true (List.all_eq_true.mp hall t ht)
  blocks := [⟨UInt16.ofNat sample.inodes.length ||| UNCOMPRESSED_BIT, sample.inodes, sample.inodes,
    by decide +kernel, by decide +kernel, by decide +kernel⟩]
  stored := by decide +kernel
  before := []
  root := ⟨UInt16.ofNat sample.inodes.length ||| UNCOMPRESSED_BIT, sample.inodes, sample.inodes,
    by decide +kernel, by decide +kernel, by decide +kernel⟩
  after := []
  root_mem := rfl
  root_ref := by decide +kernel
  recordStart _ := 0
  recordLength _ := 32
  record_length := by decide +kernel
  record_inside := by decide +kernel
  record_disjoint := by decide +kernel

/-- The sample's inodes and a symlink's, which two blocks cut in the middle of the second record. -/
def splitInodes : Bytes :=
  PlainImage.sample.inodes ++ InodeRecord.encode ⟨0x1FF, 0, 0, 0, 3⟩ (.basicSymlink 1 [0x61])

def splitSuperblock : Superblock :=
  { PlainImage.sample.superblock with
    inodeCount := 3
    directoryTableStart := 193
    idTableStart := 222
    bytesUsed := 230 }

def splitBytes : Bytes :=
  splitSuperblock.encode ++ storeRaw (splitInodes.take 40) ++ storeRaw (splitInodes.drop 40) ++
    storeRaw PlainImage.sample.listings ++ storeRaw (u32Bytes 0) ++ u64Bytes 216

theorem splitBytes_lt : splitBytes.length < wordSize := by decide +kernel

def splitDevice : Device := Device.ofBytes splitBytes splitBytes_lt

def firstBlock : MetaBlock :=
  ⟨UInt16.ofNat 40 ||| UNCOMPRESSED_BIT, splitInodes.take 40, splitInodes.take 40,
    by decide +kernel, by decide +kernel, by decide +kernel⟩

def secondBlock : MetaBlock :=
  ⟨UInt16.ofNat 53 ||| UNCOMPRESSED_BIT, splitInodes.drop 40, splitInodes.drop 40,
    by decide +kernel, by decide +kernel, by decide +kernel⟩

/-- Their layout: three records in two blocks. -/
def splitLayout : SoundLayout splitDevice splitSuperblock where
  size := by decide +kernel
  afterSuperblock := by decide +kernel
  ids := by decide +kernel
  ordered := by decide +kernel
  below := by
    have hall : (splitSuperblock.directoryTableStart ::
        splitSuperblock.laterTables.filter (· ≠ NO_TABLE)).all
          (· < splitSuperblock.bytesUsed) = true := by decide +kernel
    exact fun t ht => of_decide_eq_true (List.all_eq_true.mp hall t ht)
  blocks := [firstBlock, secondBlock]
  stored := by decide +kernel
  before := []
  root := firstBlock
  after := [secondBlock]
  root_mem := rfl
  root_ref := by decide +kernel
  recordStart i := [0, 32, 68].getD i 0
  recordLength i := [32, 36, 25].getD i 0
  record_length := by decide +kernel
  record_inside := by decide +kernel
  record_disjoint := by decide +kernel

/-- The superblock of the three records is accepted, and their number is within its bound. -/
theorem validate_soundLayout_sample :
    splitSuperblock.validateAgainstDevice splitDevice.sizeBytes = .ok () ∧
      splitSuperblock.inodeCount.toNat ≤
        (splitSuperblock.inodeTableEnd - splitSuperblock.inodeTableStart.toNat) / 3 *
          (METADATA_SIZE / MIN_INODE_SIZE) :=
  validate_soundLayout splitLayout

end Squashfs
