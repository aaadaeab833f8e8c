import Squashfs.DataBlock

/-!
# Indirect tables

Model of `src/table.rs`: `read_indirect_table` (112-164), the id and fragment tables (168-203), and
the export table (244-338).

The id, fragment and export tables are arrays of fixed-size entries in metadata blocks, found
through a raw array of block pointers. `readIndirectTable` reads every block of one and joins them;
the id and fragment tables are sliced out of that, while `ExportTable.lookup` goes to the one block
that holds its entry.

**`readIndirectTable_eq_ok`** says exactly when a table is read and what from: `TableBlocks` are the
blocks its pointers name, and their bytes are the table.

Out of scope: the capacities the vectors are allocated with, which change no result, and the
deprecated name of the size word's bit (74-78).
-/

namespace Squashfs

open Foundation

/-- One fragment-table entry. -/
structure FragmentEntry where
  start : UInt64
  size : UInt32
  deriving Repr, DecidableEq

/-- The pointers of an indirect table: `nBlocks` words at `tableStart`, which must fit before the
end of the image. -/
def readPointers (dev : Device) (sb : Superblock) (overflow short : String) (tableStart : Nat)
    (nBlocks : Nat) : Res Bytes := do
  let arrayBytes ← okOr (.badMetadata overflow) (checkedMul nBlocks 8)
  let room := min sb.bytesUsed.toNat dev.sizeBytes - tableStart
  if room < arrayBytes then fails (.badMetadata short)
  else dev.read tableStart arrayBytes

/-- `u64::from_le_bytes(ptr_bytes[i * 8..i * 8 + 8])`. -/
def pointerAt (ptrBytes : Bytes) (i : Nat) : Res UInt64 := do u64At ptrBytes (← mul64 i 8)

/-- Read and join the metadata blocks of an indirect table of `totalBytes` bytes. -/
def readIndirectTable (codecs : Codecs) (dev : Device) (sb : Superblock) (tableStart : Nat)
    (totalBytes : Nat) : Res Bytes := do
  if totalBytes = 0 then return []
  else
    let nBlocks ← divCeil totalBytes METADATA_SIZE
    let ptrBytes ← readPointers dev sb "indirect table pointer array overflows"
      "indirect table declares more blocks than it has room for" tableStart nBlocks
    let blocks ← tabulate (fun i => do
      let p ← pointerAt ptrBytes i
      let (block, _next) ← readBlockUncached codecs dev sb p.toNat
      return block) nBlocks
    let out := blocks.flatten
    if out.length < totalBytes then fails (.badMetadata "indirect table shorter than expected")
    else return out

/-- The uid/gid table. -/
def readIdTable (codecs : Codecs) (dev : Device) (sb : Superblock) : Res (List UInt32) := do
  let n := sb.idCount.toNat
  if n = 0 then return []
  else
    let bytes ← readIndirectTable codecs dev sb sb.idTableStart.toNat (← mul64 n 4)
    tabulate (fun i => do u32At bytes (← mul64 i 4)) n

/-- The fragment table. -/
def readFragmentTable (codecs : Codecs) (dev : Device) (sb : Superblock) :
    Res (List FragmentEntry) := do
  let n := sb.fragmentEntryCount.toNat
  if n = 0 then return []
  else
    let bytes ← readIndirectTable codecs dev sb sb.fragmentTableStart.toNat (← mul64 n 16)
    tabulate (fun i => do
      let o ← mul64 i 16
      let start ← u64At bytes o
      let size ← u32At bytes (← add64 o 8)
      return ⟨start, size⟩) n

/-! ## The export table -/

def EXPORT_ENTRY_SIZE : Nat := 8

/-- The map from inode numbers to inodes: where its blocks are, and how many inodes it covers. -/
structure ExportTable where
  blockStarts : List UInt64
  inodeCount : UInt32
  deriving Repr, DecidableEq

/-- The packed reference of an inode number. -/
def ExportTable.lookup (t : ExportTable) (inodeNumber : UInt32) : Prog UInt64 := do
  if inodeNumber = 0 ∨ t.inodeCount < inodeNumber then throw (.err .notFound)
  else
    let i ← (sub64 inodeNumber.toNat 1 : Res Nat)
    let byte ← (mul64 i EXPORT_ENTRY_SIZE : Res Nat)
    let within := byte % METADATA_SIZE
    let start ← okOr (.badMetadata "export table is shorter than it claims")
      t.blockStarts[byte / METADATA_SIZE]?
    let (data, _next) ← readBlock start.toNat
    let stop ← (add64 within EXPORT_ENTRY_SIZE : Res Nat)
    if data.length < stop then
      throw (.err (.badMetadata "export table entry runs past its metadata block"))
    else
      let entry ← (slice data within stop : Res Bytes)
      MetaCursor.u64Of entry

/-- The export table's pointers, or nothing for an image built without one. -/
def readExportTable (dev : Device) (sb : Superblock) : Res (Option ExportTable) := do
  let start := sb.exportTableStart
  if start = NO_TABLE then return none
  else if sb.inodeCount = 0 then return some ⟨[], 0⟩
  else
    let totalBytes ← mul64 sb.inodeCount.toNat EXPORT_ENTRY_SIZE
    let nBlocks ← divCeil totalBytes METADATA_SIZE
    let ptrBytes ← readPointers dev sb "export table pointer array overflows"
      "export table declares more blocks than it has room for" start.toNat nBlocks
    let blockStarts ← tabulate (pointerAt ptrBytes) nBlocks
    return some ⟨blockStarts, sb.inodeCount⟩

/-! ## What a table is read from -/

/-- The number of blocks of a table. -/
def tableBlockCount (totalBytes : Nat) : Nat := (totalBytes + METADATA_SIZE - 1) / METADATA_SIZE

/-- `blocks` are the decompressed blocks the table's pointers name, in order; `ptrBytes` is the
pointer array, which lies within the image. -/
structure TableBlocks (codecs : Codecs) (dev : Device) (sb : Superblock)
    (tableStart totalBytes : Nat) (ptrBytes : Bytes) (blocks : List Bytes) : Prop where
  room : tableBlockCount totalBytes * 8 ≤ min sb.bytesUsed.toNat dev.sizeBytes - tableStart
  pointers : dev.read tableStart (tableBlockCount totalBytes * 8) = .ok ptrBytes
  count : blocks.length = tableBlockCount totalBytes
  decoded : ∀ i block, blocks[i]? = some block →
    ∃ next, readBlockUncached codecs dev sb (u64le ((ptrBytes.drop (i * 8)).take 8)).toNat =
      .ok (block, next)

theorem checkedMul_eq_some {a b c : Nat} : checkedMul a b = some c ↔ a * b < wordSize ∧ c = a * b := by
  unfold checkedMul
  by_cases h : a * b < wordSize
  · simp [h, eq_comm]
  · simp [h]

theorem readPointers_eq_ok {dev : Device} {sb : Superblock} {overflow short : String}
    {tableStart nBlocks : Nat} {ptrBytes : Bytes} :
    readPointers dev sb overflow short tableStart nBlocks = .ok ptrBytes ↔
      nBlocks * 8 ≤ min sb.bytesUsed.toNat dev.sizeBytes - tableStart ∧
        dev.read tableStart (nBlocks * 8) = .ok ptrBytes := by
  have hsize := dev.size_lt
  unfold readPointers
  rw [bind_eq_ok]
  constructor
  · rintro ⟨n, hn, h⟩
    obtain ⟨-, rfl⟩ := checkedMul_eq_some.mp (okOr_eq_ok.mp hn)
    dsimp only at h
    split at h
    · cases h
    · exact ⟨by omega, h⟩
  · rintro ⟨hroom, h⟩
    have hmin := Nat.min_le_right sb.bytesUsed.toNat dev.sizeBytes
    refine ⟨_, okOr_eq_ok.mpr (checkedMul_eq_some.mpr ⟨by omega, rfl⟩), ?_⟩
    dsimp only
    rw [if_neg (by omega)]
    exact h

theorem returns_readPointers (dev : Device) (sb : Superblock) (overflow short : String)
    (tableStart nBlocks : Nat) :
    Safe (fun ptrBytes => ptrBytes.length = nBlocks * 8 ∧ ptrBytes.length ≤ dev.sizeBytes)
      (readPointers dev sb overflow short tableStart nBlocks) := by
  unfold readPointers
  refine safe_bind (safe_okOr _ _) fun n hn => ?_
  obtain ⟨-, rfl⟩ := checkedMul_eq_some.mp hn
  refine safe_ite (fun _ => trivial) fun hroom => ?_
  refine (dev.returns_read _ _).safe fun b hb => ⟨dev.length_of_read hb, ?_⟩
  rw [dev.length_of_read hb]
  have hmin := Nat.min_le_right sb.bytesUsed.toNat dev.sizeBytes
  omega

/-- A pointer of the array is the word at its place. -/
theorem pointerAt_ok {ptrBytes : Bytes} {n i : Nat} (hlen : ptrBytes.length = n * 8)
    (hsmall : ptrBytes.length < wordSize) (hi : i < n) :
    pointerAt ptrBytes i = .ok (u64le ((ptrBytes.drop (i * 8)).take 8)) := by
  unfold pointerAt
  rw [mul64_ok (by omega), ok_bind, u64At_ok (by omega) (by omega)]

/-- **A table is read exactly when** its pointers lie in the image, each names a block that
decodes, and the blocks hold the bytes declared; it is then their bytes in order. -/
theorem readIndirectTable_eq_ok {codecs : Codecs} {dev : Device} {sb : Superblock}
    {tableStart totalBytes : Nat} (hpos : totalBytes ≠ 0) {out : Bytes} :
    readIndirectTable codecs dev sb tableStart totalBytes = .ok out ↔
      ∃ ptrBytes blocks, TableBlocks codecs dev sb tableStart totalBytes ptrBytes blocks ∧
        out = blocks.flatten ∧ totalBytes ≤ out.length := by
  have hsize := dev.size_lt
  unfold readIndirectTable
  rw [if_neg hpos, divCeil_ok (by decide), ok_bind, bind_eq_ok]
  constructor
  · rintro ⟨ptrBytes, hptr, h⟩
    obtain ⟨blocks, hblocks, h⟩ := bind_eq_ok.mp h
    obtain ⟨hroom, hread⟩ := readPointers_eq_ok.mp hptr
    obtain ⟨hcount, hget⟩ := tabulate_eq_ok.mp hblocks
    dsimp only at h
    split at h
    · cases h
    · rename_i hlen
      cases h
      refine ⟨ptrBytes, blocks, ⟨hroom, hread, hcount, fun i block hi => ?_⟩, rfl, by omega⟩
      obtain ⟨p, hp, hb⟩ := bind_eq_ok.mp (hget i block hi)
      obtain ⟨⟨block', next⟩, hb, hret⟩ := bind_eq_ok.mp hb
      cases hret
      have hlt := (List.getElem?_eq_some_iff.mp hi).1
      have hmin := Nat.min_le_right sb.bytesUsed.toNat dev.sizeBytes
      have hplen := dev.length_of_read hread
      rw [pointerAt_ok hplen (by omega) (by omega)] at hp
      cases hp
      exact ⟨next, hb⟩
  · rintro ⟨ptrBytes, blocks, htable, rfl, hlen⟩
    refine ⟨ptrBytes, readPointers_eq_ok.mpr ⟨htable.room, htable.pointers⟩, ?_⟩
    have hmin := Nat.min_le_right sb.bytesUsed.toNat dev.sizeBytes
    have hroom := htable.room
    have hplen := dev.length_of_read htable.pointers
    rw [bind_eq_ok]
    refine ⟨blocks, tabulate_eq_ok.mpr ⟨htable.count, fun i block hi => ?_⟩, ?_⟩
    · obtain ⟨next, hb⟩ := htable.decoded i block hi
      have hlt := (List.getElem?_eq_some_iff.mp hi).1
      rw [htable.count] at hlt
      rw [pointerAt_ok hplen (by omega) hlt, ok_bind, hb, ok_bind]
      rfl
    · dsimp only
      rw [if_neg (by omega)]
      rfl

/-! ## Tables are read safely -/

theorem safe_readIndirectTable (codecs : Codecs) (dev : Device) (sb : Superblock)
    (tableStart totalBytes : Nat) :
    Safe (fun out => totalBytes ≤ out.length)
      (readIndirectTable codecs dev sb tableStart totalBytes) := by
  have hsize := dev.size_lt
  unfold readIndirectTable
  refine safe_ite (fun h0 => by rw [h0]; exact Nat.zero_le _) fun hpos => ?_
  rw [divCeil_ok (by decide), ok_bind]
  refine safe_bind (returns_readPointers dev sb _ _ tableStart _) fun ptrBytes hptr => ?_
  refine safe_bind (safe_tabulate (P := fun _ => True) fun i hi => ?_) fun blocks _ => ?_
  · rw [pointerAt_ok hptr.1 (by omega) hi, ok_bind]
    exact safe_bind (safe_readBlockUncached codecs dev sb _) fun _ _ => trivial
  · exact safe_ite (fun _ => trivial) fun h => Nat.le_of_not_lt h

theorem returns_readIdTable (codecs : Codecs) (dev : Device) (sb : Superblock) :
    Returns (readIdTable codecs dev sb) := by
  have hn := sb.idCount.toNat_lt
  unfold readIdTable
  refine Safe.returns (P := fun _ => True) (safe_ite (fun _ => trivial) fun hne => ?_)
  rw [mul64_ok (by unfold wordSize; omega), ok_bind]
  refine safe_bind (safe_readIndirectTable codecs dev sb _ _) fun bytes hbytes => ?_
  refine (safe_tabulate (P := fun _ => True) fun i hi => ?_).mono fun _ _ => trivial
  rw [mul64_ok (by unfold wordSize; omega), ok_bind,
    u32At_ok (by omega) (by unfold wordSize; omega)]
  trivial

theorem returns_readFragmentTable (codecs : Codecs) (dev : Device) (sb : Superblock) :
    Returns (readFragmentTable codecs dev sb) := by
  have hn := sb.fragmentEntryCount.toNat_lt
  unfold readFragmentTable
  refine Safe.returns (P := fun _ => True) (safe_ite (fun _ => trivial) fun hne => ?_)
  rw [mul64_ok (by unfold wordSize; omega), ok_bind]
  refine safe_bind (safe_readIndirectTable codecs dev sb _ _) fun bytes hbytes => ?_
  refine (safe_tabulate (P := fun _ => True) fun i hi => ?_).mono fun _ _ => trivial
  rw [mul64_ok (by unfold wordSize; omega), ok_bind,
    u64At_ok (by omega) (by unfold wordSize; omega), ok_bind,
    add64_ok (by unfold wordSize; omega), ok_bind,
    u32At_ok (by omega) (by unfold wordSize; omega)]
  trivial

theorem returns_readExportTable (dev : Device) (sb : Superblock) :
    Returns (readExportTable dev sb) := by
  have hn := sb.inodeCount.toNat_lt
  have hsize := dev.size_lt
  unfold readExportTable
  refine Safe.returns (P := fun _ => True) (safe_ite (fun _ => trivial) fun _ => ?_)
  refine safe_ite (fun _ => trivial) fun _ => ?_
  rw [mul64_ok (by unfold wordSize EXPORT_ENTRY_SIZE; omega), ok_bind, divCeil_ok (by decide),
    ok_bind]
  refine safe_bind (returns_readPointers dev sb _ _ _ _) fun ptrBytes hptr => ?_
  refine safe_bind (safe_tabulate (P := fun _ => True) fun i hi => ?_) fun _ _ => trivial
  rw [pointerAt_ok hptr.1 (by omega) hi]
  trivial

variable {f : ∀ q, Reply q}

theorem returns_lookup (hf : Tame f) (t : ExportTable) (inodeNumber : UInt32) :
    Returns (Asking.exec f (t.lookup inodeNumber)) := by
  have hn := inodeNumber.toNat_lt
  unfold ExportTable.lookup
  rw [Asking.exec_ite]
  refine Safe.returns (P := fun _ => True) (safe_ite (fun _ => trivial) fun hrange => ?_)
  rw [not_or] at hrange
  have hne : inodeNumber.toNat ≠ 0 := fun h0 => hrange.1 (UInt32.toNat_inj.mp h0)
  simp only [Asking.exec_bind, Asking.exec_lift]
  rw [sub64_ok (by omega), ok_bind, mul64_ok (by unfold EXPORT_ENTRY_SIZE wordSize; omega), ok_bind]
  refine safe_bind (safe_okOr _ _) fun start _ => ?_
  rw [exec_readBlock]
  refine safe_bind (hf.block _) fun ⟨data, next⟩ _ => ?_
  generalize (inodeNumber.toNat - 1) * EXPORT_ENTRY_SIZE = byte
  have hwithin : byte % METADATA_SIZE < METADATA_SIZE := Nat.mod_lt _ (by decide)
  dsimp only
  rw [add64_ok (by unfold METADATA_SIZE EXPORT_ENTRY_SIZE wordSize at *; omega), ok_bind,
    Asking.exec_ite]
  refine safe_ite (fun _ => trivial) fun hfit => ?_
  have hentry : ((data.drop (byte % METADATA_SIZE)).take EXPORT_ENTRY_SIZE).length = 8 :=
    window_length (by omega)
  rw [Asking.exec_bind, Asking.exec_lift, slice_window_ok (by omega), ok_bind, Asking.exec_lift,
    MetaCursor.u64Of_eq hentry]
  trivial

end Squashfs
