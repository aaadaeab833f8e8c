import Squashfs.Foundation.Blocks
import Squashfs.Image

/-!
# Entries by block

About the tables that `read_indirect_table` joins (`src/table.rs:112-203`, `src/xattr.rs:192-235`)
and the one that is read by block (`table.rs:264-290`). The format addresses the entries of an
indirect table by metadata block: entry `i` of `size` bytes is at `i * size % 8192` of block
`i * size / 8192`. The readers slice it out of the blocks joined (`slicedTable`), and look at the
blocks' joint length only.

**`tables_addressed_iff`**: the two agree, for the id, fragment and attribute tables alike, exactly
when no table that is long enough has a short block before its last (`FullBlocks`).
-/

namespace Squashfs

open Foundation

variable {codecs : Codecs} {dev : Device} {sb : Superblock} {α : Type}

/-! ## Length of a block -/

/-- With an LZO decoder that keeps to the bound it is given, every codec does. -/
theorem decompress_le (hlzo : ∀ input n out, codecs.lzo input n = some out → out.length ≤ n)
    {comp : Compressor} {input out : Bytes} {maxOut : Nat} (hin : input.length ≤ isizeMax)
    (hmax : maxOut < isizeMax) (h : decompress codecs comp input maxOut = .ok out) :
    out.length ≤ maxOut := by
  by_cases hcomp : comp = .lzo
  · subst hcomp
    have h : (decompressLzo codecs input maxOut).result = .ok out := h
    rw [result_decompressLzo] at h
    split at h
    · rename_i b hb
      cases h
      exact hlzo _ _ _ hb
    · cases h
  · exact ((safe_decompress codecs comp hin hmax).of_eq h).2 hcomp

/-- No metadata block is then longer than 8 KiB. -/
theorem readBlockUncached_le
    (hlzo : ∀ input n out, codecs.lzo input n = some out → out.length ≤ n) {abs next : Nat}
    {block : Bytes} (h : readBlockUncached codecs dev sb abs = .ok (block, next)) :
    block.length ≤ METADATA_SIZE := by
  unfold readBlockUncached at h
  obtain ⟨hdr, -, h⟩ := bind_eq_ok.mp h
  dsimp only at h
  split at h
  · cases h
  rename_i hrange
  rw [not_or, Nat.not_lt] at hrange
  obtain ⟨_, -, h⟩ := bind_eq_ok.mp h
  obtain ⟨payload, hpayload, h⟩ := bind_eq_ok.mp h
  obtain ⟨out, hout, h⟩ := bind_eq_ok.mp h
  obtain ⟨_, -, h⟩ := bind_eq_ok.mp h
  obtain ⟨_, -, h⟩ := bind_eq_ok.mp h
  cases h
  have hlen : payload.length ≤ METADATA_SIZE := dev.length_of_read hpayload ▸ hrange.2
  unfold unpackBlock at hout
  split at hout
  · obtain ⟨comp, -, hout⟩ := bind_eq_ok.mp hout
    exact decompress_le hlzo (Nat.le_trans hlen (by decide)) (by decide) hout
  · split at hout
    · cases hout
    · cases hout
      exact hlen

/-! ## The readers -/

/-- A table of `n` entries of `size` bytes, sliced out of its blocks joined. -/
def slicedTable (codecs : Codecs) (dev : Device) (sb : Superblock) (tableStart n size : Nat)
    (decode : Bytes → α) : Res (List α) :=
  if n = 0 then .ok []
  else do
    let bytes ← readIndirectTable codecs dev sb tableStart (n * size)
    return (List.range n).map fun i => decode ((bytes.drop (i * size)).take size)

/-- A fragment-table entry's 16 bytes. -/
def FragmentEntry.decode (e : Bytes) : FragmentEntry := ⟨u64le (e.take 8), u32le ((e.drop 8).take 4)⟩

/-- An attribute-table entry's 16 bytes. -/
def XattrId.decode (e : Bytes) : XattrId :=
  ⟨u64le (e.take 8), u32le ((e.drop 8).take 4), u32le ((e.drop 12).take 4)⟩

/-- A loop that decodes entry after entry of a table long enough for them. -/
theorem slicedTable_of_tabulate {tableStart n size : Nat} {decode : Bytes → α} (hn : n ≠ 0)
    {g : Bytes → Nat → Res α}
    (h : ∀ bytes i, n * size ≤ bytes.length → i < n →
      g bytes i = .ok (decode ((bytes.drop (i * size)).take size))) :
    (readIndirectTable codecs dev sb tableStart (n * size) >>= fun bytes =>
      tabulate (g bytes) n) = slicedTable codecs dev sb tableStart n size decode := by
  unfold slicedTable
  rw [if_neg hn]
  cases hbytes : readIndirectTable codecs dev sb tableStart (n * size) with
  | error e => rfl
  | ok bytes =>
    rw [ok_bind, ok_bind]
    have hlen := (safe_readIndirectTable codecs dev sb tableStart (n * size)).of_eq hbytes
    refine tabulate_eq_ok.mpr ⟨by simp, fun i a hi => ?_⟩
    obtain ⟨hlt, rfl⟩ := List.getElem?_eq_some_iff.mp hi
    rw [List.length_map, List.length_range] at hlt
    rw [h bytes i hlen hlt, List.getElem_map, List.getElem_range]

/-- A window into entry `i` lies in a table of `n` entries. -/
theorem entry_inside {n size i : Nat} {bytes : Bytes} (hlen : n * size ≤ bytes.length)
    (hi : i < n) : i * size + size ≤ bytes.length := by
  have h := Nat.mul_le_mul_right size hi
  rw [Nat.succ_mul] at h
  omega

theorem readIdTable_eq :
    readIdTable codecs dev sb =
      slicedTable codecs dev sb sb.idTableStart.toNat sb.idCount.toNat 4 u32le := by
  have hn := sb.idCount.toNat_lt
  unfold readIdTable
  by_cases h0 : sb.idCount.toNat = 0
  · rw [if_pos h0, slicedTable, if_pos h0]
    rfl
  · rw [if_neg h0, mul64_ok (by unfold wordSize; omega), ok_bind]
    refine slicedTable_of_tabulate h0 fun bytes i hlen hi => ?_
    rw [mul64_ok (by unfold wordSize; omega), ok_bind,
      u32At_ok (entry_inside hlen hi) (by unfold wordSize; omega)]

theorem readFragmentTable_eq :
    readFragmentTable codecs dev sb =
      slicedTable codecs dev sb sb.fragmentTableStart.toNat sb.fragmentEntryCount.toNat 16
        FragmentEntry.decode := by
  have hn := sb.fragmentEntryCount.toNat_lt
  unfold readFragmentTable
  by_cases h0 : sb.fragmentEntryCount.toNat = 0
  · rw [if_pos h0, slicedTable, if_pos h0]
    rfl
  · rw [if_neg h0, mul64_ok (by unfold wordSize; omega), ok_bind]
    refine slicedTable_of_tabulate h0 fun bytes i hlen hi => ?_
    have hin := entry_inside hlen hi
    rw [mul64_ok (by unfold wordSize; omega), ok_bind,
      u64At_ok (by omega) (by unfold wordSize; omega), ok_bind,
      add64_ok (by unfold wordSize; omega), ok_bind,
      u32At_ok (by omega) (by unfold wordSize; omega), ok_bind]
    simp [FragmentEntry.decode, List.take_take, List.drop_take, List.drop_drop]
    rfl

theorem Xattr.readIdTable_eq (hpresent : sb.xattrIdTableStart ≠ NO_TABLE) {header : Bytes}
    (hheader : dev.read sb.xattrIdTableStart.toNat ID_TABLE_HEADER_SIZE = .ok header) :
    readIdTable codecs dev sb =
      if u32le ((header.drop 8).take 4) ≠ 0 ∧ sb.xattrIdTableStart ≤ u64le (header.take 8) then
        fails (.badMetadata "xattr pair table starts at or after its own index")
      else (fun ids => some ⟨u64le (header.take 8), ids⟩) <$>
        slicedTable codecs dev sb (sb.xattrIdTableStart.toNat + ID_TABLE_HEADER_SIZE)
          (u32le ((header.drop 8).take 4)).toNat ID_ENTRY_SIZE XattrId.decode := by
  have hlen : header.length = 16 := dev.length_of_read hheader
  have hend := dev.le_of_read hheader (by decide)
  have hsize := dev.size_lt
  unfold readIdTable
  dsimp only
  rw [if_neg hpresent, hheader, ok_bind, u64At_ok (by omega) (by unfold wordSize; omega), ok_bind,
    u32At_ok (by omega) (by unfold wordSize; omega), ok_bind, List.drop_zero]
  generalize u32le ((header.drop 8).take 4) = xattrIds
  generalize u64le (header.take 8) = tableStart
  have hn := xattrIds.toNat_lt
  by_cases h0 : xattrIds = 0
  · subst h0
    rfl
  · have hne : xattrIds.toNat ≠ 0 := fun h => h0 (UInt32.toNat_inj.mp h)
    rw [if_neg h0]
    by_cases hle : sb.xattrIdTableStart ≤ tableStart
    · rw [if_pos hle, if_pos ⟨h0, hle⟩]
    · rw [if_neg hle, if_neg (fun h => hle h.2), add64_ok (by omega), ok_bind,
        mul64_ok (by unfold ID_ENTRY_SIZE wordSize; omega), ok_bind,
        ← slicedTable_of_tabulate hne (g := fun bytes i => do
          let lo ← mul64 i ID_ENTRY_SIZE
          let hi ← mul64 (← add64 i 1) ID_ENTRY_SIZE
          let e ← slice bytes lo hi
          return ⟨← u64At e 0, ← u32At e 8, ← u32At e 12⟩)]
      · cases readIndirectTable codecs dev sb _ _ <;> rfl
      · intro bytes i hlen hi
        have hin := entry_inside hlen hi
        unfold ID_ENTRY_SIZE at hin ⊢
        have hwindow : (i + 1) * 16 - i * 16 = 16 := by omega
        have he := window_length hin
        rw [mul64_ok (by unfold wordSize; omega), ok_bind, add64_ok (by unfold wordSize; omega),
          ok_bind, mul64_ok (by unfold wordSize; omega), ok_bind,
          slice_ok (by omega) (by omega), ok_bind, hwindow,
          u64At_ok (by omega) (by unfold wordSize; omega), ok_bind,
          u32At_ok (by omega) (by unfold wordSize; omega), ok_bind,
          u32At_ok (by omega) (by unfold wordSize; omega), ok_bind]
        rfl

/-! ## Addressing -/

/-- Block `j` before the last is short. -/
def ShortBlock (blocks : List Bytes) : Prop :=
  ∃ j block, j + 1 < blocks.length ∧ blocks[j]? = some block ∧ block.length < METADATA_SIZE

/-- The entries of a table are those the format addresses: entry `i` is decoded from its place in
block `i * size / 8192`, and a table with a short block before its last is refused. -/
structure AddressedByBlock (codecs : Codecs) (dev : Device) (sb : Superblock)
    (tableStart n size : Nat) (decode : Bytes → α) (out : Res (List α)) : Prop where
  entries : ∀ es, out = .ok es → es.length = n ∧ ∀ i < n, ∃ ptrBytes blocks block,
    TableBlocks codecs dev sb tableStart (n * size) ptrBytes blocks ∧
      blocks[i * size / METADATA_SIZE]? = some block ∧
      i * size % METADATA_SIZE + size ≤ block.length ∧
      es[i]? = some (decode ((block.drop (i * size % METADATA_SIZE)).take size))
  refused : ∀ ptrBytes blocks, TableBlocks codecs dev sb tableStart (n * size) ptrBytes blocks →
    ShortBlock blocks → ∃ e, out = fails e

/-- A table whose blocks hold it has no short block before its last. -/
def FullBlocks (codecs : Codecs) (dev : Device) (sb : Superblock) (tableStart totalBytes : Nat) :
    Prop :=
  ∀ ptrBytes blocks, TableBlocks codecs dev sb tableStart totalBytes ptrBytes blocks →
    totalBytes ≤ blocks.flatten.length → ¬ ShortBlock blocks

/-- A table has one list of blocks. -/
theorem TableBlocks.unique {tableStart totalBytes : Nat} {ptrs ptrs' : Bytes}
    {blocks blocks' : List Bytes} (h : TableBlocks codecs dev sb tableStart totalBytes ptrs blocks)
    (h' : TableBlocks codecs dev sb tableStart totalBytes ptrs' blocks') : blocks = blocks' := by
  obtain rfl : ptrs = ptrs' := by
    have := h.pointers.symm.trans h'.pointers
    cases this
    rfl
  refine List.ext_getElem (h.count.trans h'.count.symm) fun i hi hi' => ?_
  obtain ⟨next, hb⟩ := h.decoded i _ (List.getElem?_eq_getElem hi)
  obtain ⟨next', hb'⟩ := h'.decoded i _ (List.getElem?_eq_getElem hi')
  rw [hb] at hb'
  injection hb' with hb'
  exact congrArg Prod.fst hb'

/-- An entry's place in its block leaves room for it. -/
theorem entry_room {size p : Nat} (hdvd : size ∣ METADATA_SIZE) (hp : size ∣ p) :
    p % METADATA_SIZE + size ≤ METADATA_SIZE := by
  obtain ⟨a, ha⟩ := (Nat.dvd_mod_iff hdvd).mpr hp
  obtain ⟨b, hb⟩ := hdvd
  have hlt : p % METADATA_SIZE < METADATA_SIZE := Nat.mod_lt _ (by decide)
  rw [ha, hb] at hlt ⊢
  exact Nat.mul_le_mul_left size (Nat.lt_of_mul_lt_mul_left hlt)

/-- **An entry's window of the joined blocks is its window of its own block**, when no block before
the last is short. -/
theorem entry_window (hlzo : ∀ input n out, codecs.lzo input n = some out → out.length ≤ n)
    {tableStart n size : Nat} (hdvd : size ∣ METADATA_SIZE) {ptrBytes : Bytes}
    {blocks : List Bytes}
    (htable : TableBlocks codecs dev sb tableStart (n * size) ptrBytes blocks)
    (hlen : n * size ≤ blocks.flatten.length) (hfull : ¬ ShortBlock blocks) {i : Nat} (hi : i < n) :
    ∃ block, blocks[i * size / METADATA_SIZE]? = some block ∧
      i * size % METADATA_SIZE + size ≤ block.length ∧
      (blocks.flatten.drop (i * size)).take size =
        (block.drop (i * size % METADATA_SIZE)).take size := by
  have hbefore : ∀ j (block : Bytes), j + 1 < blocks.length → blocks[j]? = some block →
      block.length = METADATA_SIZE := by
    intro j block hj hb
    obtain ⟨next, hread⟩ := htable.decoded j block hb
    refine Nat.le_antisymm (readBlockUncached_le hlzo hread) (Nat.le_of_not_lt fun h => ?_)
    exact hfull ⟨j, block, hj, hb, h⟩
  have hin := entry_inside hlen hi
  have hroom := entry_room hdvd (Nat.dvd_mul_left size i)
  have hend : i * size + size ≤ n * size := by
    rw [← Nat.succ_mul]
    exact Nat.mul_le_mul_right size hi
  have hcount := htable.count
  have hpos : 0 < size := Nat.pos_of_dvd_of_pos hdvd (by decide)
  generalize i * size = p at *
  generalize n * size = total at *
  have hk : p / METADATA_SIZE < blocks.length := by
    unfold tableBlockCount METADATA_SIZE at *
    omega
  exact window_of_block hbefore hroom hin hk

theorem returns_slicedTable {tableStart n size : Nat} {decode : Bytes → α} :
    Returns (slicedTable codecs dev sb tableStart n size decode) := by
  unfold slicedTable
  refine returns_ite (fun _ => trivial) fun _ => ?_
  exact returns_bind (safe_readIndirectTable codecs dev sb _ _).returns fun _ _ => trivial

/-- **A table sliced out of its joined blocks is addressed by block** exactly when its blocks are
full. -/
theorem addressedByBlock_sliced
    (hlzo : ∀ input n out, codecs.lzo input n = some out → out.length ≤ n)
    {tableStart n size : Nat} (hdvd : size ∣ METADATA_SIZE) {decode : Bytes → α} :
    AddressedByBlock codecs dev sb tableStart n size decode
        (slicedTable codecs dev sb tableStart n size decode) ↔
      FullBlocks codecs dev sb tableStart (n * size) := by
  have hsize : size ≠ 0 := (Nat.pos_of_dvd_of_pos hdvd (by decide)).ne'
  constructor
  · intro h ptrBytes blocks htable hlen hshort
    have hn : n ≠ 0 := by
      rintro rfl
      obtain ⟨j, -, hj, -⟩ := hshort
      rw [htable.count, Nat.zero_mul] at hj
      exact absurd hj (Nat.not_lt_zero _)
    have hread := (readIndirectTable_eq_ok (Nat.mul_ne_zero hn hsize)).mpr
      ⟨ptrBytes, blocks, htable, rfl, hlen⟩
    obtain ⟨e, he⟩ := h.refused ptrBytes blocks htable hshort
    unfold slicedTable at he
    rw [if_neg hn, hread, ok_bind] at he
    cases he
  · intro hfull
    have hok : ∀ es, slicedTable codecs dev sb tableStart n size decode = .ok es →
        n = 0 ∧ es = [] ∨ ∃ ptrBytes blocks,
          TableBlocks codecs dev sb tableStart (n * size) ptrBytes blocks ∧
            n * size ≤ blocks.flatten.length ∧
            es = (List.range n).map fun i =>
              decode ((blocks.flatten.drop (i * size)).take size) := by
      intro es hes
      unfold slicedTable at hes
      split at hes
      · rename_i h0
        cases hes
        exact .inl ⟨h0, rfl⟩
      · rename_i hn
        obtain ⟨bytes, hbytes, hret⟩ := bind_eq_ok.mp hes
        obtain ⟨ptrBytes, blocks, htable, rfl, hlen⟩ :=
          (readIndirectTable_eq_ok (Nat.mul_ne_zero hn hsize)).mp hbytes
        cases hret
        exact .inr ⟨ptrBytes, blocks, htable, hlen, rfl⟩
    constructor
    · intro es hes
      rcases hok es hes with ⟨rfl, rfl⟩ | ⟨ptrBytes, blocks, htable, hlen, rfl⟩
      · exact ⟨rfl, fun i hi => absurd hi (Nat.not_lt_zero i)⟩
      · refine ⟨by rw [List.length_map, List.length_range], fun i hi => ?_⟩
        obtain ⟨block, hblock, hfit, hwindow⟩ :=
          entry_window hlzo hdvd htable hlen (hfull _ _ htable hlen) hi
        refine ⟨ptrBytes, blocks, block, htable, hblock, hfit, ?_⟩
        rw [List.getElem?_map, List.getElem?_range hi, Option.map_some, hwindow]
    · intro ptrBytes blocks htable hshort
      rcases returns_slicedTable.cases with ⟨es, hes⟩ | herr
      · rcases hok es hes with ⟨rfl, -⟩ | ⟨ptrBytes', blocks', htable', hlen, -⟩
        · obtain ⟨j, -, hj, -⟩ := hshort
          rw [htable.count, Nat.zero_mul] at hj
          exact absurd hj (Nat.not_lt_zero _)
        · rw [htable.unique htable'] at hshort
          exact absurd hshort (hfull _ _ htable' hlen)
      · exact herr

/-! ## The three tables and the export table -/

/-- The entries of the attribute table: none for an image without one. -/
def xattrEntries (codecs : Codecs) (dev : Device) (sb : Superblock) : Res (List XattrId) :=
  (fun table => table.elim [] (·.ids)) <$> Xattr.readIdTable codecs dev sb

theorem addressedByBlock_xattr
    (hlzo : ∀ input n out, codecs.lzo input n = some out → out.length ≤ n)
    (hpresent : sb.xattrIdTableStart ≠ NO_TABLE) {header : Bytes}
    (hheader : dev.read sb.xattrIdTableStart.toNat ID_TABLE_HEADER_SIZE = .ok header) :
    AddressedByBlock codecs dev sb (sb.xattrIdTableStart.toNat + ID_TABLE_HEADER_SIZE)
        (u32le ((header.drop 8).take 4)).toNat 16 XattrId.decode (xattrEntries codecs dev sb) ↔
      (u64le (header.take 8) < sb.xattrIdTableStart →
        FullBlocks codecs dev sb (sb.xattrIdTableStart.toNat + ID_TABLE_HEADER_SIZE)
          ((u32le ((header.drop 8).take 4)).toNat * 16)) := by
  have hsliced := @addressedByBlock_sliced codecs dev sb XattrId hlzo
    (sb.xattrIdTableStart.toNat + ID_TABLE_HEADER_SIZE) (u32le ((header.drop 8).take 4)).toNat 16
    (by decide) XattrId.decode
  unfold xattrEntries
  rw [Xattr.readIdTable_eq hpresent hheader]
  split
  · rename_i hguard
    refine iff_of_true ⟨nofun, fun _ _ _ _ => ⟨_, rfl⟩⟩ fun hlt => ?_
    exact absurd hlt (UInt64.not_lt.mpr hguard.2)
  · rename_i hguard
    have hmap : ∀ x : Res (List XattrId), (fun table : Option XattrIdTable =>
        table.elim [] (·.ids)) <$> (fun ids => some ⟨u64le (header.take 8), ids⟩) <$> x = x := by
      intro x
      cases x <;> rfl
    rw [hmap]
    refine hsliced.trans ⟨fun h _ => h, fun h => ?_⟩
    by_cases h0 : u32le ((header.drop 8).take 4) = 0
    · rw [h0]
      intro ptrBytes blocks htable _ hshort
      obtain ⟨j, -, hj, -⟩ := hshort
      rw [htable.count] at hj
      exact absurd hj (Nat.not_lt_zero _)
    · exact h (UInt64.not_le.mp fun hle => hguard ⟨h0, hle⟩)

/-- The export table is addressed by block. -/
theorem ExportTable.lookup_addressed {f : ∀ q, Reply q} {t : ExportTable} {inodeNumber : UInt32}
    {inodeRef : UInt64} (h : Asking.exec f (t.lookup inodeNumber) = .ok inodeRef) :
    ∃ start block next,
      t.blockStarts[(inodeNumber.toNat - 1) * EXPORT_ENTRY_SIZE / METADATA_SIZE]? = some start ∧
        f (.block start.toNat) = .ok (block, next) ∧
        (inodeNumber.toNat - 1) * EXPORT_ENTRY_SIZE % METADATA_SIZE + EXPORT_ENTRY_SIZE ≤
          block.length ∧
        inodeRef = u64le ((block.drop
          ((inodeNumber.toNat - 1) * EXPORT_ENTRY_SIZE % METADATA_SIZE)).take
            EXPORT_ENTRY_SIZE) := by
  unfold lookup at h
  rw [Asking.exec_ite] at h
  split at h
  · cases h
  simp only [Asking.exec_bind, Asking.exec_lift] at h
  obtain ⟨i, hi, h⟩ := bind_eq_ok.mp h
  obtain ⟨byte, hbyte, h⟩ := bind_eq_ok.mp h
  obtain ⟨start, hstart, h⟩ := bind_eq_ok.mp h
  obtain ⟨⟨block, next⟩, hblock, h⟩ := bind_eq_ok.mp h
  obtain ⟨-, rfl⟩ := sub64_eq_ok.mp hi
  obtain ⟨-, rfl⟩ := mul64_eq_ok.mp hbyte
  obtain ⟨stop, hstop, h⟩ := bind_eq_ok.mp h
  obtain ⟨-, rfl⟩ := add64_eq_ok.mp hstop
  rw [Asking.exec_ite] at h
  split at h
  · cases h
  rename_i hfit
  have hfit := Nat.le_of_not_lt hfit
  have hentry : ((block.drop ((inodeNumber.toNat - 1) * EXPORT_ENTRY_SIZE % METADATA_SIZE)).take
      EXPORT_ENTRY_SIZE).length = 8 := window_length hfit
  rw [Asking.exec_bind, Asking.exec_lift, slice_window_ok hfit, ok_bind, Asking.exec_lift,
    MetaCursor.u64Of_eq hentry] at h
  cases h
  exact ⟨start, block, next, okOr_eq_ok.mp hstart, hblock, hfit, rfl⟩

/-- **Table entries are addressed by block exactly when the blocks are full**, for the id table,
the fragment table and the attribute table; the export table always is. -/
theorem tables_addressed_iff (codecs : Codecs) (dev : Device) (sb : Superblock)
    (hlzo : ∀ input n out, codecs.lzo input n = some out → out.length ≤ n) :
    (AddressedByBlock codecs dev sb sb.idTableStart.toNat sb.idCount.toNat 4 u32le
        (readIdTable codecs dev sb) ↔
      FullBlocks codecs dev sb sb.idTableStart.toNat (sb.idCount.toNat * 4)) ∧
    (AddressedByBlock codecs dev sb sb.fragmentTableStart.toNat sb.fragmentEntryCount.toNat 16
        FragmentEntry.decode (readFragmentTable codecs dev sb) ↔
      FullBlocks codecs dev sb sb.fragmentTableStart.toNat (sb.fragmentEntryCount.toNat * 16)) ∧
    (∀ header, sb.xattrIdTableStart ≠ NO_TABLE →
      dev.read sb.xattrIdTableStart.toNat ID_TABLE_HEADER_SIZE = .ok header →
      (AddressedByBlock codecs dev sb (sb.xattrIdTableStart.toNat + ID_TABLE_HEADER_SIZE)
          (u32le ((header.drop 8).take 4)).toNat 16 XattrId.decode (xattrEntries codecs dev sb) ↔
        (u64le (header.take 8) < sb.xattrIdTableStart →
          FullBlocks codecs dev sb (sb.xattrIdTableStart.toNat + ID_TABLE_HEADER_SIZE)
            ((u32le ((header.drop 8).take 4)).toNat * 16)))) ∧
    ∀ (t : ExportTable) f inodeNumber inodeRef,
      Asking.exec f (t.lookup inodeNumber) = .ok inodeRef → ∃ start block next,
        t.blockStarts[(inodeNumber.toNat - 1) * EXPORT_ENTRY_SIZE / METADATA_SIZE]? = some start ∧
          f (.block start.toNat) = .ok (block, next) ∧
          (inodeNumber.toNat - 1) * EXPORT_ENTRY_SIZE % METADATA_SIZE + EXPORT_ENTRY_SIZE ≤
            block.length ∧
          inodeRef = u64le ((block.drop
            ((inodeNumber.toNat - 1) * EXPORT_ENTRY_SIZE % METADATA_SIZE)).take
              EXPORT_ENTRY_SIZE) := by
  refine ⟨?_, ?_, fun header hpresent hheader => addressedByBlock_xattr hlzo hpresent hheader,
    fun t f inodeNumber inodeRef h => t.lookup_addressed h⟩
  · rw [readIdTable_eq]
    exact addressedByBlock_sliced hlzo (by decide)
  · rw [readFragmentTable_eq]
    exact addressedByBlock_sliced hlzo (by decide)

/-- The last of two blocks of ids. -/
def lastBlock : Bytes := u32Bytes 7 ++ u32Bytes 9

/-- Where the two blocks are, when the first has `n` bytes. -/
def idPointers (n : Nat) : Bytes := u64Bytes 96 ++ u64Bytes (UInt64.ofNat (n + 98))

def idSuperblock (n : Nat) : Superblock :=
  { PlainImage.sample.superblock with
    idCount := 2049
    idTableStart := UInt64.ofNat (n + 108)
    bytesUsed := UInt64.ofNat (n + 124) }

/-- 2,049 ids in two blocks. -/
def idBytes (n : Nat) : Bytes :=
  (idSuperblock n).encode ++ (storeRaw (List.replicate n 0) ++ (storeRaw lastBlock ++ idPointers n))

theorem lastBlock_length : lastBlock.length = 8 := rfl

theorem idPointers_length (n : Nat) : (idPointers n).length = 16 := by
  rw [idPointers, List.length_append, u64Bytes_length, u64Bytes_length]

theorem idBytes_length (n : Nat) : (idBytes n).length = n + 124 := by
  simp only [idBytes, List.length_append, Superblock.encode_length, storeRaw_length,
    List.length_replicate, lastBlock_length, idPointers_length]
  omega

section TwoBlocks

variable {n : Nat}

theorem idBytes_lt (hle : n ≤ METADATA_SIZE) : (idBytes n).length < wordSize := by
  rw [idBytes_length]
  unfold METADATA_SIZE at hle
  unfold wordSize
  omega

theorem idPlace (hle : n ≤ METADATA_SIZE) {k : Nat} (hk : k ≤ 124) :
    (UInt64.ofNat (n + k)).toNat = n + k := by
  unfold METADATA_SIZE at hle
  exact UInt64.toNat_ofNat_of_lt' (Nat.lt_of_le_of_lt (show n + k ≤ 8316 by omega) (by decide))

theorem idBytes_read_pointers (hle : n ≤ METADATA_SIZE) :
    (Device.ofBytes (idBytes n) (idBytes_lt hle)).read (n + 108) 16 = .ok (idPointers n) := by
  have hpre : ((idSuperblock n).encode ++
      (storeRaw (List.replicate n 0) ++ storeRaw lastBlock)).length = n + 108 := by
    simp only [List.length_append, Superblock.encode_length, storeRaw_length,
      List.length_replicate, lastBlock_length]
    omega
  have hbytes : idBytes n = (idSuperblock n).encode ++
      (storeRaw (List.replicate n 0) ++ storeRaw lastBlock) ++ idPointers n := by
    simp only [idBytes, List.append_assoc]
  rw [Device.ofBytes_read (by rw [idBytes_length]), hbytes, List.drop_left' hpre,
    List.take_of_length_le (Nat.le_of_eq (idPointers_length n))]

/-- The two blocks are those of the id table. -/
theorem idBytes_tableBlocks (hle : n ≤ METADATA_SIZE) (hpos : 0 < n) :
    TableBlocks .none (Device.ofBytes (idBytes n) (idBytes_lt hle)) (idSuperblock n) (n + 108) 8196
      (idPointers n) [List.replicate n 0, lastBlock] := by
  refine ⟨?_, idBytes_read_pointers hle, rfl, fun i block hi => ?_⟩
  · have hsize : (Device.ofBytes (idBytes n) (idBytes_lt hle)).sizeBytes = n + 124 :=
      idBytes_length n
    have hused : (idSuperblock n).bytesUsed.toNat = n + 124 := idPlace hle (Nat.le_refl _)
    rw [hsize, hused, Nat.min_self]
    show 16 ≤ _
    omega
  · match i with
    | 0 =>
      cases hi
      have hread : readBlockUncached .none (Device.ofBytes (idBytes n) (idBytes_lt hle))
          (idSuperblock n) (idSuperblock n).encode.length = .ok (List.replicate n 0, _) :=
        readBlockUncached_storeRaw _ rfl (by rwa [List.length_replicate])
          (by rwa [List.length_replicate])
      have hword : u64le (((idPointers n).drop (0 * 8)).take 8) = 96 := by
        rw [idPointers, Nat.zero_mul, List.drop_zero, List.take_left' (u64Bytes_length _),
          u64le_u64Bytes]
      rw [Superblock.encode_length] at hread
      rw [hword]
      exact ⟨_, hread⟩
    | 1 =>
      cases hi
      have hpre : ((idSuperblock n).encode ++ storeRaw (List.replicate n 0)).length = n + 98 := by
        simp only [List.length_append, Superblock.encode_length, storeRaw_length,
          List.length_replicate]
        omega
      have hbytes : idBytes n = ((idSuperblock n).encode ++ storeRaw (List.replicate n 0)) ++
          (storeRaw lastBlock ++ idPointers n) := by
        rw [idBytes, List.append_assoc]
      have hread : readBlockUncached .none (Device.ofBytes (idBytes n) (idBytes_lt hle))
          (idSuperblock n) ((idSuperblock n).encode ++ storeRaw (List.replicate n 0)).length =
            .ok (lastBlock, _) :=
        readBlockUncached_storeRaw _ hbytes (by decide) (by decide)
      have hword : u64le (((idPointers n).drop (1 * 8)).take 8) = UInt64.ofNat (n + 98) := by
        rw [idPointers, Nat.one_mul, List.drop_left' (u64Bytes_length _),
          List.take_of_length_le (Nat.le_of_eq (u64Bytes_length _)), u64le_u64Bytes]
      rw [hpre] at hread
      rw [hword, idPlace hle (by omega)]
      exact ⟨_, hread⟩
    | i + 2 => cases hi

end TwoBlocks

/-- In two blocks of which the first is full, the last of the ids is the first of the second. -/
theorem tables_addressed_sample :
    AddressedByBlock .none (Device.ofBytes (idBytes 8192) (idBytes_lt (Nat.le_refl _)))
        (idSuperblock 8192) 8300 2049 4 u32le
        (readIdTable .none (Device.ofBytes (idBytes 8192) (idBytes_lt (Nat.le_refl _)))
          (idSuperblock 8192)) ∧
      ∀ ids, readIdTable .none (Device.ofBytes (idBytes 8192) (idBytes_lt (Nat.le_refl _)))
        (idSuperblock 8192) = .ok ids → ids[2048]? = some 7 := by
  have htable := @idBytes_tableBlocks 8192 (Nat.le_refl _) (by decide)
  have haddressed := (tables_addressed_iff .none _ (idSuperblock 8192) nofun).1.mpr <| by
    rintro ptrBytes blocks hblocks - ⟨j, block, hj, hblock, hshort⟩
    rw [hblocks.unique htable] at hj hblock
    obtain rfl : j = 0 := by
      have hj : j + 1 < 2 := hj
      omega
    cases hblock
    rw [List.length_replicate] at hshort
    exact absurd hshort (Nat.lt_irrefl _)
  refine ⟨haddressed, fun ids hids => ?_⟩
  obtain ⟨ptrBytes, blocks, block, hblocks, hblock, -, hentry⟩ :=
    (haddressed.entries ids hids).2 2048 (by decide)
  rw [hblocks.unique htable] at hblock
  cases hblock
  exact hentry

/-! ## A short block -/

/-- A block of ids, four bytes short. -/
def shortBlock : Bytes := List.replicate 8188 0

theorem shortBlock_length : shortBlock.length = 8188 := List.length_replicate

def shortSuperblock : Superblock := idSuperblock 8188

/-- 2,049 ids in two blocks, of which the first is short. -/
def shortBytes : Bytes := idBytes 8188

theorem shortBytes_lt : shortBytes.length < wordSize := idBytes_lt (by decide)

theorem short_tableBlocks : TableBlocks .none (Device.ofBytes shortBytes shortBytes_lt)
    shortSuperblock 8296 8196 (idPointers 8188) [shortBlock, lastBlock] :=
  idBytes_tableBlocks (by decide) (by decide)

/-- The last of 2,049 ids is read in the place after its own. -/
theorem short_block_shifts :
    Superblock.read (Device.ofBytes shortBytes shortBytes_lt) = .ok shortSuperblock ∧
      (∃ ids, readIdTable .none (Device.ofBytes shortBytes shortBytes_lt) shortSuperblock =
        .ok ids ∧ ids[2048]? = some 9) ∧
      ¬ AddressedByBlock .none (Device.ofBytes shortBytes shortBytes_lt) shortSuperblock 8296 2049 4
        u32le (readIdTable .none (Device.ofBytes shortBytes shortBytes_lt) shortSuperblock) := by
  have hlen : [shortBlock, lastBlock].flatten.length = 8196 := by
    rw [List.flatten_cons, List.flatten_singleton, List.length_append, shortBlock_length]
    rfl
  have hindirect : readIndirectTable .none (Device.ofBytes shortBytes shortBytes_lt)
      shortSuperblock 8296 8196 = .ok [shortBlock, lastBlock].flatten :=
    (readIndirectTable_eq_ok (by decide)).mpr
      ⟨_, _, short_tableBlocks, rfl, Nat.le_of_eq hlen.symm⟩
  have hread : readIdTable .none (Device.ofBytes shortBytes shortBytes_lt) shortSuperblock =
      .ok ((List.range 2049).map fun i =>
        u32le (([shortBlock, lastBlock].flatten.drop (i * 4)).take 4)) := by
    rw [readIdTable_eq]
    show (readIndirectTable _ _ _ 8296 8196 >>= _) = _
    rw [hindirect]
    rfl
  refine ⟨Superblock.read_encode rfl rfl rfl shortBytes_lt rfl, ⟨_, hread, ?_⟩, fun h => ?_⟩
  · have hdrop : (shortBlock ++ lastBlock).drop 8192 = u32Bytes 9 := by
      rw [← List.drop_drop (i := 4) (j := 8188), List.drop_left' shortBlock_length]
      rfl
    rw [List.getElem?_map, List.getElem?_range (by omega), Option.map_some, List.flatten_cons,
      List.flatten_singleton, hdrop]
    rfl
  · obtain ⟨e, he⟩ := h.refused _ _ short_tableBlocks
      ⟨0, shortBlock, by decide, rfl, by rw [shortBlock_length]; decide⟩
    rw [hread] at he
    cases he

end Squashfs
