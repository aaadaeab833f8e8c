import Squashfs.Addressing
import Squashfs.Cache
import Squashfs.Stored

/-!
# Stored tables are read back

About the readers of the lookup tables (`src/table.rs:168-338`, `src/xattr.rs:192-235`) over what a
writer laid out. A writer lays a table out as its entries' bytes, cut into metadata blocks of 8 KiB
of which only the last may be shorter, each stored raw or compressed, and an array of the blocks'
offsets (`StoredTable`). `StoredTables` is an image with its four tables laid out so, the optional
ones present or not.

**`stored_tables_read_back`**: the readers give back the lists that were stored, the export table
answers the reference of every inode number there is and no other, through any caches, and a table
that is not there reads as absent.
-/

namespace Squashfs

open Foundation

variable {codecs : Codecs} {dev : Device} {sb : Superblock} {α β : Type}

/-! ## One table -/

/-- `bytes` is stored as a table at `tableStart`: cut into `blocks`, the blocks at `starts`, and the
array of these within the image. -/
structure StoredTable (codecs : Codecs) (dev : Device) (sb : Superblock) (tableStart : Nat)
    (bytes : Bytes) (starts : List UInt64) (blocks : List Bytes) : Prop where
  cut : CutInto METADATA_SIZE blocks
  joined : blocks.flatten = bytes
  stored : List.Forall₂ (fun start block => ∃ next,
    StoredBlock codecs dev sb start.toNat block next) starts blocks
  room : tableStart + starts.length * 8 ≤ min sb.bytesUsed.toNat dev.sizeBytes
  pointers : dev.read tableStart (starts.length * 8) = .ok (starts.flatMap u64Bytes)

/-- The entries `es` are stored as a table. A table without entries has no blocks. -/
def StoredEntries (codecs : Codecs) (dev : Device) (sb : Superblock) (tableStart : Nat)
    (encode : β → Bytes) (es : List β) : Prop :=
  es ≠ [] → ∃ starts blocks,
    StoredTable codecs dev sb tableStart (es.flatMap encode) starts blocks

/-- A pointer of the array is the word that was written there. -/
theorem pointer_word {starts : List UInt64} {i : Nat} {start : UInt64}
    (hi : starts[i]? = some start) :
    u64le (((starts.flatMap u64Bytes).drop (i * 8)).take 8) = start := by
  rw [flatMap_window (fun v _ => u64Bytes_length v) hi, u64le_u64Bytes]

namespace StoredTable

variable {tableStart : Nat} {bytes : Bytes} {starts : List UInt64} {blocks : List Bytes}

/-- There are as many pointers as the reader computes from the table's length. -/
theorem starts_length (h : StoredTable codecs dev sb tableStart bytes starts blocks) :
    starts.length = tableBlockCount bytes.length := by
  rw [h.stored.length_eq, h.cut.count (by decide), h.joined]
  rfl

/-- The block at a pointer. -/
theorem read (h : StoredTable codecs dev sb tableStart bytes starts blocks) {i : Nat}
    {block : Bytes} (hi : blocks[i]? = some block) :
    ∃ start next, starts[i]? = some start ∧
      readBlockUncached codecs dev sb start.toNat = .ok (block, next) := by
  obtain ⟨hlt, rfl⟩ := List.getElem?_eq_some_iff.mp hi
  have hlt' : i < starts.length := h.stored.length_eq ▸ hlt
  obtain ⟨next, hblock⟩ := h.stored.get hlt' hlt
  exact ⟨_, next, List.getElem?_eq_getElem hlt', hblock.read⟩

/-- The blocks stored are those the reader's pointers name. -/
theorem tableBlocks (h : StoredTable codecs dev sb tableStart bytes starts blocks) :
    TableBlocks codecs dev sb tableStart bytes.length (starts.flatMap u64Bytes) blocks := by
  have hroom := h.room
  refine ⟨?_, ?_, ?_, fun i block hi => ?_⟩
  · rw [← h.starts_length]
    omega
  · rw [← h.starts_length]
    exact h.pointers
  · rw [← h.starts_length, h.stored.length_eq]
  · obtain ⟨start, next, hstart, hread⟩ := h.read hi
    exact ⟨next, by rw [pointer_word hstart, hread]⟩

/-- Read as a whole, the table is the bytes stored. -/
theorem readIndirect (h : StoredTable codecs dev sb tableStart bytes starts blocks)
    (hne : bytes.length ≠ 0) :
    readIndirectTable codecs dev sb tableStart bytes.length = .ok bytes :=
  (readIndirectTable_eq_ok hne).mpr
    ⟨_, _, h.tableBlocks, h.joined.symm, Nat.le_refl _⟩

end StoredTable

/-- **The entries of a stored table are read back.** -/
theorem slicedTable_stored {tableStart n size : Nat} {encode : β → Bytes} {decode : Bytes → α}
    {value : β → α} {es : List β} (hlen : ∀ e, (encode e).length = size) (hsize : 0 < size)
    (hdecode : ∀ e, decode (encode e) = value e) (hn : es.length = n)
    (h : StoredEntries codecs dev sb tableStart encode es) :
    slicedTable codecs dev sb tableStart n size decode = .ok (es.map value) := by
  subst hn
  unfold slicedTable
  by_cases hnil : es = []
  · subst hnil
    rfl
  · have hpos := List.length_pos_of_ne_nil hnil
    obtain ⟨starts, blocks, htable⟩ := h hnil
    have hbytes : (es.flatMap encode).length = es.length * size :=
      flatMap_length fun e _ => hlen e
    have hread := htable.readIndirect (hbytes ▸ (Nat.mul_pos hpos hsize).ne')
    rw [hbytes] at hread
    rw [if_neg hpos.ne', hread, ok_bind, pure_eq_ok]
    refine congrArg Except.ok (List.ext_getElem? fun i => ?_)
    by_cases hi : i < es.length
    · have he := List.getElem?_eq_getElem hi
      rw [List.getElem?_map, List.getElem?_range hi, List.getElem?_map, he, Option.map_some,
        Option.map_some, flatMap_window (fun e _ => hlen e) he, hdecode]
    · rw [List.getElem?_eq_none (by simpa using hi), List.getElem?_eq_none (by simpa using hi)]

/-! ## Entries -/

/-- A fragment table entry, and the word after it that no reader looks at. -/
def FragmentEntry.encode (e : FragmentEntry × UInt32) : Bytes :=
  u64Bytes e.1.start ++ u32Bytes e.1.size ++ u32Bytes e.2

def XattrId.encode (e : XattrId) : Bytes :=
  u64Bytes e.xattrRef ++ u32Bytes e.count ++ u32Bytes e.size

theorem FragmentEntry.encode_length (e : FragmentEntry × UInt32) : (encode e).length = 16 := by
  simp [encode]

theorem FragmentEntry.decode_encode (e : FragmentEntry × UInt32) : decode (encode e) = e.1 := by
  obtain ⟨⟨start, size⟩, unused⟩ := e
  have hstart : ((u64Bytes start ++ u32Bytes size ++ u32Bytes unused).take 8) = u64Bytes start := by
    rw [List.append_assoc, List.take_left' (u64Bytes_length start)]
  have hsize : ((u64Bytes start ++ u32Bytes size ++ u32Bytes unused).drop 8).take 4 =
      u32Bytes size := by
    rw [List.append_assoc, List.drop_left' (u64Bytes_length start),
      List.take_left' (u32Bytes_length size)]
  simp only [decode, encode, hstart, hsize, u64le_u64Bytes, u32le_u32Bytes]

theorem XattrId.encode_length (e : XattrId) : (encode e).length = ID_ENTRY_SIZE := by
  simp [encode, ID_ENTRY_SIZE]

theorem XattrId.decode_encode (e : XattrId) : decode (encode e) = e := by
  obtain ⟨xattrRef, count, size⟩ := e
  have href : (u64Bytes xattrRef ++ u32Bytes count ++ u32Bytes size).take 8 =
      u64Bytes xattrRef := by
    rw [List.append_assoc, List.take_left' (u64Bytes_length xattrRef)]
  have hcount : ((u64Bytes xattrRef ++ u32Bytes count ++ u32Bytes size).drop 8).take 4 =
      u32Bytes count := by
    rw [List.append_assoc, List.drop_left' (u64Bytes_length xattrRef),
      List.take_left' (u32Bytes_length count)]
  have hsize : ((u64Bytes xattrRef ++ u32Bytes count ++ u32Bytes size).drop 12).take 4 =
      u32Bytes size := by
    rw [List.drop_left' (by simp), List.take_of_length_le (by simp)]
  simp only [decode, encode, href, hcount, hsize, u64le_u64Bytes, u32le_u32Bytes]

/-! ## The export table -/

/-- The reference stored for an inode number: inodes are numbered from 1. -/
def storedRef (refs : List UInt64) (inodeNumber : UInt32) : Res UInt64 :=
  if inodeNumber = 0 then fails .notFound
  else match refs[inodeNumber.toNat - 1]? with
    | some inodeRef => .ok inodeRef
    | none => fails .notFound

/-- The pointers of a stored export table. -/
theorem readExportTable_stored {refs : List UInt64} (hpresent : sb.exportTableStart ≠ NO_TABLE)
    (hcount : refs.length = sb.inodeCount.toNat) (hne : refs ≠ []) {starts : List UInt64}
    {blocks : List Bytes} (h : StoredTable codecs dev sb sb.exportTableStart.toNat
      (refs.flatMap u64Bytes) starts blocks) :
    readExportTable dev sb = .ok (some ⟨starts, sb.inodeCount⟩) := by
  have hn := sb.inodeCount.toNat_lt
  have hpos := List.length_pos_of_ne_nil hne
  have hsome : sb.inodeCount ≠ 0 := by
    intro h0
    rw [hcount, h0] at hpos
    exact absurd hpos (Nat.lt_irrefl 0)
  have hbytes : (refs.flatMap u64Bytes).length = sb.inodeCount.toNat * EXPORT_ENTRY_SIZE := by
    rw [← hcount]
    exact flatMap_length fun v _ => u64Bytes_length v
  have hlen := h.starts_length
  rw [hbytes] at hlen
  have hroom := h.room
  have hptr := h.pointers
  have hsize := dev.size_lt
  have hread : (starts.flatMap u64Bytes).length = starts.length * 8 := dev.length_of_read hptr
  unfold readExportTable
  dsimp only
  rw [if_neg hpresent, if_neg hsome, mul64_ok (by unfold EXPORT_ENTRY_SIZE wordSize; omega),
    ok_bind, divCeil_ok (by decide), ok_bind]
  show (readPointers dev sb _ _ _ (tableBlockCount _) >>= _) = _
  rw [← hlen, readPointers_eq_ok.mpr ⟨by omega, hptr⟩, ok_bind]
  have htab : tabulate (pointerAt (starts.flatMap u64Bytes)) starts.length = .ok starts := by
    refine tabulate_eq_ok.mpr ⟨rfl, fun i start hi => ?_⟩
    have hlt := (List.getElem?_eq_some_iff.mp hi).1
    rw [pointerAt_ok hread (by omega) hlt, pointer_word hi]
  show (tabulate (pointerAt _) (tableBlockCount _) >>= _) = _
  rw [← hlen, htab, ok_bind]
  rfl

/-- **A lookup answers the reference stored for its number**, and no other. -/
theorem lookup_stored {comp : Compressor} {refs starts : List UInt64} {inodeCount : UInt32}
    (hcount : refs.length = inodeCount.toNat)
    (h : refs ≠ [] → ∃ blocks, StoredTable codecs dev sb sb.exportTableStart.toNat
      (refs.flatMap u64Bytes) starts blocks) (inodeNumber : UInt32) :
    Asking.exec (uncached codecs dev sb comp)
      ((ExportTable.mk starts inodeCount).lookup inodeNumber) = storedRef refs inodeNumber := by
  have hn := inodeNumber.toNat_lt
  unfold ExportTable.lookup storedRef
  rw [Asking.exec_ite]
  by_cases hzero : inodeNumber = 0
  · rw [if_pos (.inl hzero), if_pos hzero]
    rfl
  have hpos : inodeNumber.toNat ≠ 0 := fun h0 => hzero (UInt32.toNat_inj.mp h0)
  by_cases hover : inodeCount < inodeNumber
  · have hnone : refs[inodeNumber.toNat - 1]? = none := by
      rw [UInt32.lt_iff_toNat_lt] at hover
      exact List.getElem?_eq_none (by omega)
    rw [if_pos (.inr hover), if_neg hzero, hnone]
    rfl
  rw [if_neg (not_or.mpr ⟨hzero, hover⟩), if_neg hzero]
  rw [UInt32.lt_iff_toNat_lt] at hover
  generalize hp : (inodeNumber.toNat - 1) * 8 = p
  have hlt : inodeNumber.toNat - 1 < refs.length := by omega
  have href := List.getElem?_eq_getElem hlt
  obtain ⟨blocks, htable⟩ := h (List.ne_nil_of_length_pos (by omega))
  have hbytes : (refs.flatMap u64Bytes).length = refs.length * 8 :=
    flatMap_length fun v _ => u64Bytes_length v
  have hblocks : blocks.length = (refs.length * 8 + METADATA_SIZE - 1) / METADATA_SIZE := by
    rw [htable.cut.count (by decide), htable.joined, hbytes]
  obtain ⟨block, hblock, hfit, hwindow⟩ := window_of_block (k := 8) htable.cut.full
    (entry_room (by decide) ⟨_, hp.symm.trans (Nat.mul_comm _ _)⟩)
    (by rw [htable.joined]; omega) (by unfold METADATA_SIZE at *; omega)
  obtain ⟨start, next, hstart, hread⟩ := htable.read hblock
  have hentry : (block.drop (p % METADATA_SIZE)).take 8 = u64Bytes refs[inodeNumber.toNat - 1] := by
    rw [← hwindow, htable.joined, ← hp, flatMap_window (fun v _ => u64Bytes_length v) href]
  simp only [Asking.exec_bind, Asking.exec_lift]
  rw [sub64_ok (by omega), ok_bind, mul64_ok (by unfold EXPORT_ENTRY_SIZE wordSize; omega), ok_bind,
    EXPORT_ENTRY_SIZE, hp, hstart]
  show (readBlockUncached codecs dev sb start.toNat >>= _) = _
  rw [hread, ok_bind, add64_ok (by unfold METADATA_SIZE wordSize; omega), ok_bind, Asking.exec_ite,
    if_neg (Nat.not_lt_of_le hfit), Asking.exec_bind, Asking.exec_lift, slice_window_ok hfit,
    hentry, ok_bind, Asking.exec_lift, MetaCursor.u64Of_eq (u64Bytes_length _), u64le_u64Bytes,
    href]

/-! ## The four tables -/

/-- The export table: the references of the inodes in the order of their numbers, or nothing. -/
def StoredExport (codecs : Codecs) (dev : Device) (sb : Superblock) : Option (List UInt64) → Prop
  | none => sb.exportTableStart = NO_TABLE
  | some refs => sb.exportTableStart ≠ NO_TABLE ∧ refs.length = sb.inodeCount.toNat ∧
      StoredEntries codecs dev sb sb.exportTableStart.toNat u64Bytes refs

/-- The attribute table: a header that names the pair area before it and counts the sets, and the
entries after it, or nothing. -/
def StoredXattrs (codecs : Codecs) (dev : Device) (sb : Superblock) : Option XattrIdTable → Prop
  | none => sb.xattrIdTableStart = NO_TABLE
  | some table => sb.xattrIdTableStart ≠ NO_TABLE ∧
      (table.ids ≠ [] → table.tableStart < sb.xattrIdTableStart) ∧
      ∃ count unused : UInt32, table.ids.length = count.toNat ∧
        dev.read sb.xattrIdTableStart.toNat ID_TABLE_HEADER_SIZE =
          .ok (u64Bytes table.tableStart ++ u32Bytes count ++ u32Bytes unused) ∧
        StoredEntries codecs dev sb (sb.xattrIdTableStart.toNat + ID_TABLE_HEADER_SIZE)
          XattrId.encode table.ids

/-- The lookup tables of an image. Of a fragment entry the last word is unused. -/
structure StoredTables (codecs : Codecs) (dev : Device) (sb : Superblock) (ids : List UInt32)
    (fragments : List (FragmentEntry × UInt32)) (refs : Option (List UInt64))
    (xattrs : Option XattrIdTable) : Prop where
  idCount : ids.length = sb.idCount.toNat
  idTable : StoredEntries codecs dev sb sb.idTableStart.toNat u32Bytes ids
  fragmentCount : fragments.length = sb.fragmentEntryCount.toNat
  fragmentTable : StoredEntries codecs dev sb sb.fragmentTableStart.toNat FragmentEntry.encode
    fragments
  exportTable : StoredExport codecs dev sb refs
  xattrTable : StoredXattrs codecs dev sb xattrs

theorem readIdTable_stored {ids : List UInt32} (hcount : ids.length = sb.idCount.toNat)
    (h : StoredEntries codecs dev sb sb.idTableStart.toNat u32Bytes ids) :
    readIdTable codecs dev sb = .ok ids := by
  rw [readIdTable_eq, slicedTable_stored u32Bytes_length (by decide) u32le_u32Bytes hcount h,
    List.map_id']

theorem readFragmentTable_stored {fragments : List (FragmentEntry × UInt32)}
    (hcount : fragments.length = sb.fragmentEntryCount.toNat)
    (h : StoredEntries codecs dev sb sb.fragmentTableStart.toNat FragmentEntry.encode fragments) :
    readFragmentTable codecs dev sb = .ok (fragments.map Prod.fst) := by
  rw [readFragmentTable_eq, slicedTable_stored FragmentEntry.encode_length (by decide)
    FragmentEntry.decode_encode hcount h]

theorem Xattr.readIdTable_stored {xattrs : Option XattrIdTable}
    (h : StoredXattrs codecs dev sb xattrs) : readIdTable codecs dev sb = .ok xattrs := by
  cases xattrs with
  | none =>
    have habsent : sb.xattrIdTableStart = NO_TABLE := h
    unfold readIdTable
    dsimp only
    rw [if_pos habsent]
    rfl
  | some table =>
    obtain ⟨hpresent, hbefore, count, unused, hcount, hheader, hstored⟩ := h
    have hstart : ((u64Bytes table.tableStart ++ u32Bytes count ++ u32Bytes unused).take 8) =
        u64Bytes table.tableStart := by
      rw [List.append_assoc, List.take_left' (u64Bytes_length _)]
    have hcountWord : ((u64Bytes table.tableStart ++ u32Bytes count ++
        u32Bytes unused).drop 8).take 4 = u32Bytes count := by
      rw [List.append_assoc, List.drop_left' (u64Bytes_length _),
        List.take_left' (u32Bytes_length _)]
    have hguard : ¬ (count ≠ 0 ∧ sb.xattrIdTableStart ≤ table.tableStart) := by
      rintro ⟨hne, hle⟩
      refine UInt64.not_lt.mpr hle (hbefore fun hnil => hne (UInt32.toNat_inj.mp ?_))
      rw [← hcount, hnil]
      rfl
    rw [readIdTable_eq hpresent hheader, hstart, hcountWord, u64le_u64Bytes, u32le_u32Bytes,
      if_neg hguard, slicedTable_stored XattrId.encode_length (by decide) XattrId.decode_encode
        hcount hstored, List.map_id']
    rfl

theorem readExportTable_absent (h : sb.exportTableStart = NO_TABLE) :
    readExportTable dev sb = .ok none := by
  unfold readExportTable
  dsimp only
  rw [if_pos h]
  rfl

/-- The export table as the reader keeps it: the offsets of the blocks. -/
theorem readExportTable_present {refs : List UInt64} (h : StoredExport codecs dev sb (some refs)) :
    ∃ t, readExportTable dev sb = .ok (some t) ∧ ∀ comp inodeNumber,
      Asking.exec (uncached codecs dev sb comp) (t.lookup inodeNumber) =
        storedRef refs inodeNumber := by
  obtain ⟨hpresent, hcount, hstored⟩ := h
  by_cases hnil : refs = []
  · have hzero : sb.inodeCount = 0 := by
      rw [hnil] at hcount
      exact UInt32.toNat_inj.mp hcount.symm
    refine ⟨⟨[], 0⟩, ?_, fun comp inodeNumber => ?_⟩
    · unfold readExportTable
      dsimp only
      rw [if_neg hpresent, if_pos hzero]
      rfl
    · exact lookup_stored (by rw [hnil]; rfl) (fun hne => absurd hnil hne) inodeNumber
  · obtain ⟨starts, blocks, htable⟩ := hstored hnil
    exact ⟨_, readExportTable_stored hpresent hcount hnil htable, fun comp inodeNumber =>
      lookup_stored hcount (fun _ => ⟨blocks, htable⟩) inodeNumber⟩

/-- **The four lookup tables read back what was stored.** The lists of ids, fragments and attribute
sets are those stored; the export table answers the reference stored for each inode number from 1
to the last and `NotFound` for every other, to one reader alone and to any number racing over
caches that hold true answers; a table that is not there reads as absent. -/
theorem stored_tables_read_back {σ τ ι : Type} [DecidableEq ι]
    (M : BoundedMap Nat (Bytes × Nat) σ) (D : BoundedMap DataKey Bytes τ) (codecs : Codecs)
    (dev : Device) (sb : Superblock) (comp : Compressor) {ids : List UInt32}
    {fragments : List (FragmentEntry × UInt32)} {refs : Option (List UInt64)}
    {xattrs : Option XattrIdTable}
    (h : StoredTables codecs dev sb ids fragments refs xattrs) :
    readIdTable codecs dev sb = .ok ids ∧
    readFragmentTable codecs dev sb = .ok (fragments.map Prod.fst) ∧
    Xattr.readIdTable codecs dev sb = .ok xattrs ∧
    (refs = none → readExportTable dev sb = .ok none) ∧
    ∀ stored, refs = some stored → ∃ t, readExportTable dev sb = .ok (some t) ∧
      (∀ inodeNumber, Asking.exec (uncached codecs dev sb comp) (t.lookup inodeNumber) =
        storedRef stored inodeNumber) ∧
      ∀ (caches : Caches σ τ) (inodeNumbers : ι → UInt32)
        (w : World Req.Value Error (Outcome Error UInt64) (Caches σ τ) ι),
        Sound (cacheMemo M D) (uncached codecs dev sb comp) caches →
        Relation.ReflTransGen (Step (cacheMemo M D) (uncached codecs dev sb comp))
          ⟨caches, fun i => .start (t.lookup (inodeNumbers i)).run⟩ w →
        ∀ i answer, (w.readers i).phase = .running (.ret answer) →
          answer = storedRef stored (inodeNumbers i) := by
  refine ⟨readIdTable_stored h.idCount h.idTable,
    readFragmentTable_stored h.fragmentCount h.fragmentTable,
    Xattr.readIdTable_stored h.xattrTable, fun hnone => ?_, fun stored hstored => ?_⟩
  · have habsent := h.exportTable
    rw [hnone] at habsent
    exact readExportTable_absent habsent
  · have hexport := h.exportTable
    rw [hstored] at hexport
    obtain ⟨t, hread, hlookup⟩ := readExportTable_present hexport
    refine ⟨t, hread, hlookup comp, fun caches inodeNumbers w hsound hrun i answer hanswer => ?_⟩
    rw [← hlookup comp]
    exact (racing_invisible hsound _ hrun i).2 answer hanswer

/-- A table of one short block. -/
theorem storedEntries_one {tableStart : Nat} {encode : β → Bytes} {es : List β} (start : UInt64)
    {next : Nat} (hblock : StoredBlock codecs dev sb start.toNat (es.flatMap encode) next)
    (hpos : es.flatMap encode ≠ []) (hle : (es.flatMap encode).length ≤ METADATA_SIZE)
    (hroom : tableStart + 8 ≤ min sb.bytesUsed.toNat dev.sizeBytes)
    (hread : dev.read tableStart 8 = .ok (u64Bytes start)) :
    StoredEntries codecs dev sb tableStart encode es := by
  intro _
  have hfilled : ∀ block ∈ [es.flatMap encode], block ≠ [] ∧ block.length ≤ METADATA_SIZE := by
    intro block hmem
    rw [List.mem_singleton.mp hmem]
    exact ⟨hpos, hle⟩
  refine ⟨[start], [es.flatMap encode], ⟨⟨fun j block hj _ => ?_, hfilled⟩, ?_, ?_, hroom, ?_⟩⟩
  · exact absurd hj (by simp)
  · exact List.flatten_singleton
  · exact .cons ⟨next, hblock⟩ .nil
  · rw [List.flatMap_singleton]
    exact hread

/-- A table of a full block and the entries after it. -/
theorem storedEntries_two {tableStart : Nat} {encode : β → Bytes} {es es' : List β}
    (start start' : UInt64) {next next' : Nat}
    (hfirst : StoredBlock codecs dev sb start.toNat (es.flatMap encode) next)
    (hlast : StoredBlock codecs dev sb start'.toNat (es'.flatMap encode) next')
    (hfull : (es.flatMap encode).length = METADATA_SIZE) (hpos : es'.flatMap encode ≠ [])
    (hle : (es'.flatMap encode).length ≤ METADATA_SIZE)
    (hroom : tableStart + 16 ≤ min sb.bytesUsed.toNat dev.sizeBytes)
    (hread : dev.read tableStart 16 = .ok (u64Bytes start ++ u64Bytes start')) :
    StoredEntries codecs dev sb tableStart encode (es ++ es') := by
  intro _
  refine ⟨[start, start'], [es.flatMap encode, es'.flatMap encode],
    ⟨⟨fun j block hj hblock => ?_, fun block hmem => ?_⟩, ?_, ?_, hroom, ?_⟩⟩
  · obtain rfl : j = 0 := by
      have hj : j + 1 < 2 := hj
      omega
    cases hblock
    exact hfull
  · rcases List.mem_cons.mp hmem with rfl | hmem
    · refine ⟨fun hnil => ?_, Nat.le_of_eq hfull⟩
      rw [hnil] at hfull
      exact absurd hfull (by decide)
    · rw [List.mem_singleton.mp hmem]
      exact ⟨hpos, hle⟩
  · rw [List.flatten_cons, List.flatten_singleton, List.flatMap_append]
  · exact .cons ⟨next, hfirst⟩ (.cons ⟨next', hlast⟩ .nil)
  · rw [List.flatMap_cons, List.flatMap_singleton]
    exact hread

section Chunks

variable {chunks : List Bytes} (h : chunks.flatten.length < wordSize)

/-- The chunks of a device are read at the sum of the lengths before them. -/
theorem Device.read_chunk {k p : Nat} {chunk : Bytes} (hk : chunks[k]? = some chunk)
    (hp : ((chunks.map List.length).take k).sum = p) {i n : Nat} (hin : i + n ≤ chunk.length) :
    (Device.ofBytes chunks.flatten h).read (p + i) n = .ok ((chunk.drop i).take n) := by
  obtain ⟨hlt, rfl⟩ := List.getElem?_eq_some_iff.mp hk
  rw [← List.map_take, ← List.length_flatten] at hp
  have hsplit : chunks.flatten = (chunks.take k).flatten ++
      (chunks[k] ++ (chunks.drop (k + 1)).flatten) := by
    rw [← List.flatten_cons, ← List.drop_eq_getElem_cons hlt, ← List.flatten_append,
      List.take_append_drop]
  have hlen := congrArg List.length hsplit
  rw [List.length_append, List.length_append, hp] at hlen
  rw [Device.ofBytes_read (by omega), hsplit, ← List.drop_drop, List.drop_left' hp,
    List.drop_append_of_le_length (by omega), List.take_append_of_le_length]
  rw [List.length_drop]
  omega

/-- A chunk that is a block stored raw. -/
theorem StoredBlock.chunk {k p : Nat} {block : Bytes} (hk : chunks[k]? = some (storeRaw block))
    (hp : ((chunks.map List.length).take k).sum = p) (hle : block.length ≤ METADATA_SIZE)
    (hpos : 0 < block.length) :
    StoredBlock codecs (Device.ofBytes chunks.flatten h) sb p block (p + 2 + block.length) := by
  have hlen := storeRaw_length block
  refine .raw block hle hpos ?_ ?_
  · rw [← Nat.add_zero p, Device.read_chunk h hk hp (by omega), List.drop_zero, storeRaw,
      List.take_left' (u16Bytes_length _)]
  · rw [Device.read_chunk h hk hp (by omega), storeRaw, List.drop_left' (u16Bytes_length _),
      List.take_length]

end Chunks

/-- The ids of a full block, one more, and the like for the references; two fragments and two
attribute sets. Their pointers come after them. -/
def smallTables : List Bytes :=
  [storeRaw ((List.replicate 2048 7).flatMap u32Bytes), storeRaw (u32Bytes 9),
    storeRaw ([(⟨9, 3⟩, 0), (⟨12, 4⟩, 0)].flatMap FragmentEntry.encode),
    storeRaw ((List.replicate 1024 32).flatMap u64Bytes), storeRaw (u64Bytes 64),
    storeRaw ([⟨0, 1, 9⟩, ⟨9, 2, 21⟩].flatMap XattrId.encode),
    u64Bytes 0 ++ u64Bytes 8194, u64Bytes 8200, u64Bytes 8234 ++ u64Bytes 16428,
    u64Bytes 5 ++ u32Bytes 2 ++ u32Bytes 0, u64Bytes 16438]

theorem manyIds_length : ((List.replicate 2048 (7 : UInt32)).flatMap u32Bytes).length = 8192 := by
  rw [flatMap_length fun e _ => u32Bytes_length e, List.length_replicate]

theorem manyRefs_length : ((List.replicate 1024 (32 : UInt64)).flatMap u64Bytes).length = 8192 := by
  rw [flatMap_length fun e _ => u64Bytes_length e, List.length_replicate]

theorem smallTables_lengths :
    smallTables.map List.length = [8194, 6, 34, 8194, 10, 34, 16, 8, 16, 16, 8] := by
  simp only [smallTables, List.map_cons, List.map_nil, List.length_append, storeRaw_length,
    manyIds_length, manyRefs_length, u32Bytes_length, u64Bytes_length]
  rfl

theorem smallTables_length : smallTables.flatten.length = 16536 := by
  rw [List.length_flatten, smallTables_lengths]
  rfl

theorem smallTables_lt : smallTables.flatten.length < wordSize := by
  rw [smallTables_length]
  decide

def smallTablesDevice : Device := Device.ofBytes smallTables.flatten smallTables_lt

def smallTablesSuperblock : Superblock :=
  { PlainImage.sample.superblock with
    inodeCount := 1025
    fragmentEntryCount := 2
    idCount := 2049
    bytesUsed := 16536
    idTableStart := 16472
    fragmentTableStart := 16488
    exportTableStart := 16496
    xattrIdTableStart := 16512 }

/-- The raw block among them at `p`. -/
theorem smallTables_block (k : Nat) {p : Nat} {block : Bytes}
    (hk : smallTables[k]? = some (storeRaw block))
    (hp : ([8194, 6, 34, 8194, 10, 34, 16, 8, 16, 16, 8].take k).sum = p)
    (hle : block.length ≤ METADATA_SIZE) (hpos : 0 < block.length) :
    StoredBlock .none smallTablesDevice smallTablesSuperblock p block (p + 2 + block.length) :=
  .chunk smallTables_lt hk (by rwa [smallTables_lengths]) hle hpos

/-- The pointers among them at `p`. -/
theorem smallTables_read (k : Nat) {p n : Nat} {chunk : Bytes} (hk : smallTables[k]? = some chunk)
    (hp : ([8194, 6, 34, 8194, 10, 34, 16, 8, 16, 16, 8].take k).sum = p)
    (hn : chunk.length = n) : smallTablesDevice.read p n = .ok chunk := by
  subst hn
  have hread := @Device.read_chunk _ smallTables_lt k p _ hk (by rwa [smallTables_lengths]) 0
    chunk.length (by omega)
  rwa [List.drop_zero, List.take_length, Nat.add_zero] at hread

theorem smallTables_room {p n : Nat} (h : p + n ≤ 16536) :
    p + n ≤ min smallTablesSuperblock.bytesUsed.toNat smallTablesDevice.sizeBytes := by
  have hsize : smallTablesDevice.sizeBytes = 16536 := smallTables_length
  rw [hsize]
  exact le_min h h

theorem smallTables_ids : StoredEntries .none smallTablesDevice smallTablesSuperblock 16472 u32Bytes
    (List.replicate 2048 7 ++ [9]) :=
  storedEntries_two 0 8194
    (smallTables_block 0 rfl rfl (Nat.le_of_eq manyIds_length) (by rw [manyIds_length]; decide))
    (smallTables_block 1 rfl rfl (by decide) (by decide)) manyIds_length (by decide) (by decide)
    (smallTables_room (by decide)) (smallTables_read 6 rfl rfl rfl)

theorem smallTables_fragments : StoredEntries .none smallTablesDevice smallTablesSuperblock 16488
    FragmentEntry.encode [(⟨9, 3⟩, 0), (⟨12, 4⟩, 0)] :=
  storedEntries_one 8200 (smallTables_block 2 rfl rfl (by decide) (by decide))
    (by decide) (by decide) (smallTables_room (by decide)) (smallTables_read 7 rfl rfl rfl)

theorem smallTables_refs : StoredEntries .none smallTablesDevice smallTablesSuperblock 16496
    u64Bytes (List.replicate 1024 32 ++ [64]) :=
  storedEntries_two 8234 16428
    (smallTables_block 3 rfl rfl (Nat.le_of_eq manyRefs_length) (by rw [manyRefs_length]; decide))
    (smallTables_block 4 rfl rfl (by decide) (by decide)) manyRefs_length (by decide) (by decide)
    (smallTables_room (by decide)) (smallTables_read 8 rfl rfl rfl)

theorem smallTables_sets : StoredEntries .none smallTablesDevice smallTablesSuperblock 16528
    XattrId.encode [⟨0, 1, 9⟩, ⟨9, 2, 21⟩] :=
  storedEntries_one 16438 (smallTables_block 5 rfl rfl (by decide) (by decide))
    (by decide) (by decide) (smallTables_room (by decide)) (smallTables_read 10 rfl rfl rfl)

theorem smallTables_stored : StoredTables .none smallTablesDevice smallTablesSuperblock
    (List.replicate 2048 7 ++ [9]) [(⟨9, 3⟩, 0), (⟨12, 4⟩, 0)]
    (some (List.replicate 1024 32 ++ [64])) (some ⟨5, [⟨0, 1, 9⟩, ⟨9, 2, 21⟩]⟩) where
  idCount := by rw [List.length_append, List.length_replicate]; rfl
  idTable := smallTables_ids
  fragmentCount := rfl
  fragmentTable := smallTables_fragments
  exportTable := ⟨by decide, by rw [List.length_append, List.length_replicate]; rfl,
    smallTables_refs⟩
  xattrTable := ⟨by decide, fun _ => by decide, 2, 0, rfl, smallTables_read 9 rfl rfl rfl,
    smallTables_sets⟩

/-- One of two racing lookups gets its reference, which is in the second block. -/
theorem stored_tables_read_back_sample :
    readIdTable .none smallTablesDevice smallTablesSuperblock =
        .ok (List.replicate 2048 7 ++ [9]) ∧
      readFragmentTable .none smallTablesDevice smallTablesSuperblock = .ok [⟨9, 3⟩, ⟨12, 4⟩] ∧
      Xattr.readIdTable .none smallTablesDevice smallTablesSuperblock =
        .ok (some ⟨5, [⟨0, 1, 9⟩, ⟨9, 2, 21⟩]⟩) ∧
      ∃ t, readExportTable smallTablesDevice smallTablesSuperblock = .ok (some t) ∧
        ∃ (w : World Req.Value Error (Outcome Error UInt64)
            (Caches (BoundedMap.Lru Nat (Bytes × Nat)) (BoundedMap.Lru DataKey Bytes)) Bool)
          (answer : Outcome Error UInt64),
          (w.readers true).phase = .running (.ret answer) ∧ answer = .ok 64 := by
  let M := BoundedMap.lru Nat (Bytes × Nat)
  let D := BoundedMap.lru DataKey Bytes
  let f := uncached .none smallTablesDevice smallTablesSuperblock .gzip
  obtain ⟨hids, hfragments, hxattrs, -, hexport⟩ := @stored_tables_read_back _ _ Bool _ M D .none
    smallTablesDevice smallTablesSuperblock .gzip _ _ _ _ smallTables_stored
  obtain ⟨t, hread, -, hrace⟩ := hexport _ rfl
  have hget : (List.replicate 1024 (32 : UInt64) ++ [64])[(1025 : UInt32).toNat - 1]? =
      some 64 := by
    rw [List.getElem?_append_right (by rw [List.length_replicate]; decide), List.length_replicate]
    rfl
  have hlast : storedRef (List.replicate 1024 32 ++ [64]) 1025 = .ok 64 := by
    unfold storedRef
    rw [if_neg (by decide), hget]
  obtain ⟨w, answer, hrun, hret⟩ := World.finish (M := cacheMemo M D) (f := f)
    (w := ⟨Caches.new M D 2 1, fun _ => .start (t.lookup 1025).run⟩) (i := true) rfl
  exact ⟨hids, hfragments, hxattrs, t, hread, w, answer, hret,
    (hrace _ (fun _ => 1025) w (sound_new M D f 2 1) hrun true answer hret).trans hlast⟩

end Squashfs
