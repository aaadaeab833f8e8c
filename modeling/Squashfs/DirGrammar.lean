import Squashfs.Dir

/-!
# The grammar of directory listings

About `parse_listing` (`src/dir.rs:50-116`). A listing is a concatenation of groups, each a header
and one to 256 entries, and an entry is eight bytes and a name. A `StoredEntry` and a `StoredGroup`
carry the bounds of the format, so that every list of groups can be written (`encode`), and a list
of groups has the directory entries it lists (`dirEntries`).

**`parseListing_iff`**: the parser accepts a buffer exactly when it is a concatenation of groups,
gives their entries in order, and refuses every other buffer. It goes by what one entry
(`parseEntry_eq_ok`), one group's entries and one group (`parseRun_eq_ok`) consume.
-/

namespace Squashfs

open Foundation

/-! ## The grammar -/

/-- An entry as a listing stores it. -/
structure StoredEntry where
  offset : UInt16
  delta : Int16
  typeId : UInt16
  name : Bytes
  listed : ListedName name

/-- A header and its entries. -/
structure StoredGroup where
  start : UInt32
  baseInode : UInt32
  entries : List StoredEntry
  nonempty : entries ≠ []
  length_le : entries.length ≤ MAX_ENTRIES_PER_HEADER

namespace StoredEntry

/-- Eight bytes, the last two the name's length minus one, and the name. -/
def encode (e : StoredEntry) : Bytes :=
  u16Bytes e.offset ++ (u16Bytes e.delta.toUInt16 ++ (u16Bytes e.typeId ++
    (u16Bytes (UInt16.ofNat (e.name.length - 1)) ++ e.name)))

/-- The directory entry under a header with the given `start` and `baseInode`. -/
def dirEntry (start baseInode : UInt32) (e : StoredEntry) : DirEntry where
  name := e.name
  inodeRef := UInt64.ofNat (start.toNat * 65536 + e.offset.toNat)
  typeId := e.typeId
  inodeNumber := UInt32.ofNat ((baseInode.toNat + e.delta.toInt) % 2 ^ 32).toNat

theorem length_pos (e : StoredEntry) : 0 < e.name.length :=
  List.length_pos_of_ne_nil e.listed.nonempty

theorem encode_length (e : StoredEntry) : e.encode.length = 8 + e.name.length := by
  simp only [encode, List.length_append, u16Bytes_length]
  omega

end StoredEntry

namespace StoredGroup

/-- Twelve bytes, the first four the number of entries minus one, and the entries. -/
def encode (g : StoredGroup) : Bytes :=
  u32Bytes (UInt32.ofNat (g.entries.length - 1)) ++ (u32Bytes g.start ++ (u32Bytes g.baseInode ++
    (g.entries.map StoredEntry.encode).flatten))

/-- The directory entries of a group. -/
def dirEntries (g : StoredGroup) : List DirEntry :=
  g.entries.map (StoredEntry.dirEntry g.start g.baseInode)

theorem length_pos (g : StoredGroup) : 0 < g.entries.length :=
  List.length_pos_of_ne_nil g.nonempty

theorem encode_length (g : StoredGroup) :
    g.encode.length = 12 + (g.entries.map StoredEntry.encode).flatten.length := by
  simp only [encode, List.length_append, u32Bytes_length]
  omega

end StoredGroup

/-! ## One entry -/

/-- A metadata reference's halves do not overlap. -/
theorem inodeRef_eq (start : UInt32) (offset : UInt16) :
    (start.toUInt64 <<< 16) ||| offset.toUInt64 =
      UInt64.ofNat (start.toNat * 65536 + offset.toNat) := by
  have hstart := start.toNat_lt
  have hoffset : offset.toNat < 2 ^ 16 := offset.toNat_lt
  have hshift : (start.toUInt64 <<< 16).toNat = start.toNat <<< 16 := by
    rw [UInt64.toNat_shiftLeft, UInt32.toNat_toUInt64]
    have h16 : (16 : UInt64).toNat % 64 = 16 := rfl
    rw [h16, Nat.shiftLeft_eq, Nat.mod_eq_of_lt (by omega)]
  apply UInt64.toNat_inj.mp
  rw [UInt64.toNat_or, hshift, UInt16.toNat_toUInt64, ← Nat.shiftLeft_add_eq_or_of_lt hoffset,
    Nat.shiftLeft_eq, UInt64.toNat_ofNat', Nat.mod_eq_of_lt (by omega)]

/-- What an entry says of its inode. -/
theorem dirEntry_eq (start baseInode : UInt32) (e : StoredEntry) :
    e.dirEntry start baseInode = ⟨e.name, (start.toUInt64 <<< 16) ||| e.offset.toUInt64, e.typeId,
      UInt32.ofInt (baseInode.toNat + e.delta.toUInt16.toInt16.toInt)⟩ := by
  rw [inodeRef_eq]
  rfl

/-- A stored entry at `p` is its five fields, one after the other. -/
theorem spells_entry {buf : Bytes} {p : Nat} {e : StoredEntry} :
    Spells buf p e.encode ↔ Spells buf p (u16Bytes e.offset) ∧
      Spells buf (p + 2) (u16Bytes e.delta.toUInt16) ∧ Spells buf (p + 4) (u16Bytes e.typeId) ∧
      Spells buf (p + 6) (u16Bytes (UInt16.ofNat (e.name.length - 1))) ∧
      Spells buf (p + 8) e.name := by
  unfold StoredEntry.encode
  rw [spells_append, spells_append, spells_append, spells_append]
  simp only [u16Bytes_length, Nat.add_assoc]

/-- **One entry**: the parser consumes exactly one stored entry. -/
theorem parseEntry_eq_ok {buf : Bytes} {start baseInode : UInt32} {p q : Nat} {e : DirEntry}
    (hw : buf.length ≤ isizeMax) :
    parseEntry buf start baseInode p = .ok (e, q) ↔
      ∃ s : StoredEntry, Spells buf p s.encode ∧ q = p + s.encode.length ∧
        e = s.dirEntry start baseInode := by
  unfold isizeMax at hw
  constructor
  · intro h
    unfold parseEntry at h
    obtain ⟨_, hadd, h⟩ := bind_eq_ok.mp h
    obtain ⟨-, rfl⟩ := add64_eq_ok.mp hadd
    rcases ite_eq_iff.mp h with ⟨_, h⟩ | ⟨hroom, h⟩
    · cases h
    obtain ⟨offset, hoffset, h⟩ := bind_eq_ok.mp h
    obtain ⟨_, hadd, h⟩ := bind_eq_ok.mp h
    obtain ⟨-, rfl⟩ := add64_eq_ok.mp hadd
    obtain ⟨delta, hdelta, h⟩ := bind_eq_ok.mp h
    obtain ⟨_, hadd, h⟩ := bind_eq_ok.mp h
    obtain ⟨-, rfl⟩ := add64_eq_ok.mp hadd
    obtain ⟨typeId, htype, h⟩ := bind_eq_ok.mp h
    obtain ⟨_, hadd, h⟩ := bind_eq_ok.mp h
    obtain ⟨-, rfl⟩ := add64_eq_ok.mp hadd
    obtain ⟨size, hsize, h⟩ := bind_eq_ok.mp h
    rw [add64_ok (by unfold wordSize; omega), ok_bind] at h
    obtain ⟨nameLen, hnameLen, h⟩ := bind_eq_ok.mp h
    obtain ⟨-, rfl⟩ := add64_eq_ok.mp hnameLen
    rcases ite_eq_iff.mp h with ⟨_, h⟩ | ⟨hlen, h⟩
    · cases h
    obtain ⟨stop, hstop, h⟩ := bind_eq_ok.mp h
    rcases ite_eq_iff.mp h with ⟨_, h⟩ | ⟨hfit, h⟩
    · cases h
    obtain ⟨name, hname, h⟩ := bind_eq_ok.mp h
    rcases ite_eq_iff.mp h with ⟨_, h⟩ | ⟨hdots, h⟩
    · cases h
    rcases ite_eq_iff.mp h with ⟨_, h⟩ | ⟨hslash, h⟩
    · cases h
    rcases ite_eq_iff.mp h with ⟨_, h⟩ | ⟨hnul, h⟩
    · cases h
    cases h
    obtain ⟨-, rfl⟩ := add64_eq_ok.mp hstop
    obtain ⟨-, hname, hnamed⟩ := slice_eq_ok_spells.mp hname
    have hcount : name.length = size.toNat + 1 := by omega
    rw [not_or] at hdots
    have hlisted : ListedName name := {
      nonempty := List.ne_nil_of_length_eq_add_one hcount
      length_le := by omega
      not_dot := hdots.1
      not_dotdot := hdots.2
      no_slash := by simpa using hslash
      no_nul := by simpa using hnul }
    have hword : UInt16.ofNat (name.length - 1) = size := by
      rw [hcount, Nat.add_sub_cancel, UInt16.ofNat_toNat]
    refine ⟨⟨offset, delta.toInt16, typeId, name, hlisted⟩, ?_, ?_, ?_⟩
    · refine spells_entry.mpr ⟨(u16At_eq_ok.mp hoffset).2, (u16At_eq_ok.mp hdelta).2,
        (u16At_eq_ok.mp htype).2, ?_, hname⟩
      dsimp only
      rw [hword]
      exact (u16At_eq_ok.mp hsize).2
    · rw [StoredEntry.encode_length, hcount, Nat.add_assoc]
    · rw [dirEntry_eq]
      rfl
  · rintro ⟨s, hs, rfl, rfl⟩
    obtain ⟨hoffset, hdelta, htype, hsize, hname⟩ := spells_entry.mp hs
    have hlisted := s.listed
    have hfit := hname.le hlisted.nonempty
    have hpos := s.length_pos
    have hle := hlisted.length_le
    have hcount : (UInt16.ofNat (s.name.length - 1)).toNat + 1 = s.name.length := by
      rw [UInt16.toNat_ofNat', Nat.mod_eq_of_lt (by unfold SQUASHFS_NAME_LEN at hle; omega)]
      omega
    have hslash : ¬ s.name.contains 0x2F = true := by simpa using hlisted.no_slash
    have hnul : ¬ s.name.contains 0 = true := by simpa using hlisted.no_nul
    have hword : ∀ i, i ≤ buf.length → i + 8 < wordSize := fun i hi => by
      unfold wordSize
      omega
    have hp := hword p (by omega)
    unfold parseEntry
    rw [add64_ok hp, ok_bind, if_neg (by omega), u16At_eq_ok.mpr ⟨by omega, hoffset⟩, ok_bind,
      add64_ok (by omega), ok_bind, u16At_eq_ok.mpr ⟨by omega, hdelta⟩, ok_bind,
      add64_ok (by omega), ok_bind, u16At_eq_ok.mpr ⟨by omega, htype⟩, ok_bind,
      add64_ok (by omega), ok_bind, u16At_eq_ok.mpr ⟨by omega, hsize⟩, ok_bind, ok_bind,
      add64_ok (by rw [hcount]; unfold wordSize; omega), ok_bind, hcount, if_neg (by omega),
      add64_ok (by unfold wordSize; omega), ok_bind, if_neg (by omega),
      slice_eq_ok_spells.mpr ⟨hfit, hname, rfl⟩, ok_bind,
      if_neg (not_or.mpr ⟨hlisted.not_dot, hlisted.not_dotdot⟩), if_neg hslash, if_neg hnul,
      dirEntry_eq, s.encode_length, Nat.add_assoc]
    rfl

/-! ## A group -/

/-- **A header's entries**: the parser consumes exactly that many stored entries. -/
theorem parseEntries_eq_ok {buf : Bytes} {start baseInode : UInt32} {n p q : Nat}
    {out out' : List DirEntry} (hw : buf.length ≤ isizeMax) :
    parseEntries buf start baseInode n out p = .ok (out', q) ↔
      ∃ es : List StoredEntry, es.length = n ∧
        Spells buf p (es.map StoredEntry.encode).flatten ∧
        q = p + (es.map StoredEntry.encode).flatten.length ∧
        out' = out ++ es.map (StoredEntry.dirEntry start baseInode) := by
  induction n generalizing out out' p q with
  | zero =>
    unfold parseEntries
    constructor
    · intro h
      cases h
      exact ⟨[], rfl, spells_nil _ _, rfl, (List.append_nil _).symm⟩
    · rintro ⟨es, hes, -, rfl, rfl⟩
      rw [List.length_eq_zero_iff.mp hes, List.map_nil, List.map_nil, List.append_nil]
      rfl
  | succ n ih =>
    unfold parseEntries
    constructor
    · intro h
      obtain ⟨⟨e, p'⟩, he, h⟩ := bind_eq_ok.mp h
      obtain ⟨s, hs, rfl, rfl⟩ := (parseEntry_eq_ok hw).mp he
      obtain ⟨es, rfl, hes, rfl, rfl⟩ := ih.mp h
      refine ⟨s :: es, rfl, ?_, ?_, ?_⟩
      · rw [List.map_cons, List.flatten_cons]
        exact spells_append.mpr ⟨hs, hes⟩
      · rw [List.map_cons, List.flatten_cons, List.length_append, Nat.add_assoc]
      · rw [List.map_cons, List.append_assoc]
        rfl
    · rintro ⟨es, hlen, hes, rfl, rfl⟩
      obtain ⟨s, es, rfl⟩ := List.exists_cons_of_length_eq_add_one hlen
      rw [List.map_cons, List.flatten_cons] at hes
      obtain ⟨hs, hes⟩ := spells_append.mp hes
      rw [(parseEntry_eq_ok hw).mpr ⟨s, hs, rfl, rfl⟩, ok_bind]
      refine ih.mpr ⟨es, Nat.succ.inj hlen, hes, ?_, ?_⟩
      · rw [List.map_cons, List.flatten_cons, List.length_append, Nat.add_assoc]
      · rw [List.map_cons, List.append_assoc]
        rfl

/-- A stored group at `p` is its header's three words and its entries. -/
theorem spells_group {buf : Bytes} {p : Nat} {g : StoredGroup} :
    Spells buf p g.encode ↔ Spells buf p (u32Bytes (UInt32.ofNat (g.entries.length - 1))) ∧
      Spells buf (p + 4) (u32Bytes g.start) ∧ Spells buf (p + 8) (u32Bytes g.baseInode) ∧
      Spells buf (p + 12) (g.entries.map StoredEntry.encode).flatten := by
  unfold StoredGroup.encode
  rw [spells_append, spells_append, spells_append]
  simp only [u32Bytes_length, Nat.add_assoc]

/-- **One group**: the parser consumes exactly one stored group. -/
theorem parseRun_eq_ok {buf : Bytes} {out out' : List DirEntry} {p q : Nat}
    (hw : buf.length ≤ isizeMax) :
    parseRun buf out p = .ok (out', q) ↔
      ∃ g : StoredGroup, Spells buf p g.encode ∧ q = p + g.encode.length ∧
        out' = out ++ g.dirEntries := by
  unfold isizeMax at hw
  constructor
  · intro h
    unfold parseRun at h
    obtain ⟨_, hadd, h⟩ := bind_eq_ok.mp h
    obtain ⟨-, rfl⟩ := add64_eq_ok.mp hadd
    rcases ite_eq_iff.mp h with ⟨_, h⟩ | ⟨hroom, h⟩
    · cases h
    obtain ⟨count, hcount, h⟩ := bind_eq_ok.mp h
    obtain ⟨_, hadd, h⟩ := bind_eq_ok.mp h
    obtain ⟨-, rfl⟩ := add64_eq_ok.mp hadd
    obtain ⟨start, hstart, h⟩ := bind_eq_ok.mp h
    obtain ⟨_, hadd, h⟩ := bind_eq_ok.mp h
    obtain ⟨-, rfl⟩ := add64_eq_ok.mp hadd
    obtain ⟨baseInode, hbase, h⟩ := bind_eq_ok.mp h
    split at h
    · cases h
    rename_i n hn
    rcases ite_eq_iff.mp h with ⟨_, h⟩ | ⟨hn256, h⟩
    · cases h
    obtain ⟨es, rfl, hes, rfl, rfl⟩ := (parseEntries_eq_ok hw).mp h
    have hlen : es.length = count.toNat + 1 := by
      unfold checkedAdd at hn
      split at hn
      · exact (Option.some.inj hn).symm
      · cases hn
    have hword : UInt32.ofNat (es.length - 1) = count := by
      rw [hlen, Nat.add_sub_cancel, UInt32.ofNat_toNat]
    refine ⟨⟨start, baseInode, es, List.ne_nil_of_length_eq_add_one hlen, by omega⟩,
      spells_group.mpr ⟨?_, (u32At_eq_ok.mp hstart).2, (u32At_eq_ok.mp hbase).2, hes⟩, ?_, rfl⟩
    · dsimp only
      rw [hword]
      exact (u32At_eq_ok.mp hcount).2
    · rw [StoredGroup.encode_length, Nat.add_assoc]
  · rintro ⟨g, hg, rfl, rfl⟩
    obtain ⟨hcount, hstart, hbase, hes⟩ := spells_group.mp hg
    have hpos := g.length_pos
    have hle := g.length_le
    have hfit := hbase.le (List.ne_nil_of_length_eq_add_one (u32Bytes_length _))
    rw [u32Bytes_length] at hfit
    have hword : p + 12 < wordSize := by
      unfold wordSize
      omega
    have hentries : checkedAdd (UInt32.ofNat (g.entries.length - 1)).toNat 1 =
        some g.entries.length := by
      unfold MAX_ENTRIES_PER_HEADER at hle
      have hsucc : g.entries.length - 1 + 1 = g.entries.length := by omega
      unfold checkedAdd
      rw [UInt32.toNat_ofNat', Nat.mod_eq_of_lt (by omega), hsucc,
        if_pos (by unfold wordSize; omega)]
    unfold parseRun
    rw [add64_ok hword, ok_bind, if_neg (by omega), u32At_eq_ok.mpr ⟨by omega, hcount⟩, ok_bind,
      add64_ok (by omega), ok_bind, u32At_eq_ok.mpr ⟨by omega, hstart⟩, ok_bind,
      add64_ok (by omega), ok_bind, u32At_eq_ok.mpr ⟨by omega, hbase⟩, ok_bind, hentries]
    dsimp only
    rw [if_neg (by omega), g.encode_length]
    exact (parseEntries_eq_ok hw).mpr ⟨g.entries, rfl, hes, by rw [Nat.add_assoc], rfl⟩

/-! ## A listing -/

theorem StoredGroup.encode_ne_nil (g : StoredGroup) : g.encode ≠ [] := by
  intro hnil
  have hlen := g.encode_length
  rw [hnil, List.length_nil] at hlen
  omega

/-- At the end of the buffer there is no group left. -/
theorem groups_at_end {buf : Bytes} {p : Nat} {out out' : List DirEntry} (hp : buf.length ≤ p) :
    (.ok out : Res (List DirEntry)) = .ok out' ↔
      ∃ gs : List StoredGroup, buf.drop p = (gs.map StoredGroup.encode).flatten ∧
        out' = out ++ gs.flatMap StoredGroup.dirEntries := by
  rw [List.drop_eq_nil_of_le hp]
  constructor
  · intro h
    cases h
    exact ⟨[], rfl, (List.append_nil _).symm⟩
  · rintro ⟨gs, hgs, rfl⟩
    cases gs with
    | nil => rw [List.flatMap_nil, List.append_nil]
    | cons g gs =>
      rw [List.map_cons, List.flatten_cons] at hgs
      exact absurd (List.append_eq_nil_iff.mp hgs.symm).1 g.encode_ne_nil

/-- **The loop** accepts groups from `p` to the end of the buffer. -/
theorem parseRuns_eq_ok {buf : Bytes} {turns p : Nat} {out out' : List DirEntry}
    (hw : buf.length ≤ isizeMax) (hp : p ≤ buf.length) (hturns : buf.length ≤ turns + p) :
    parseRuns buf turns out p = .ok out' ↔
      ∃ gs : List StoredGroup, buf.drop p = (gs.map StoredGroup.encode).flatten ∧
        out' = out ++ gs.flatMap StoredGroup.dirEntries := by
  induction turns generalizing out p with
  | zero =>
    unfold parseRuns
    rw [if_neg (by omega)]
    exact groups_at_end (by omega)
  | succ turns ih =>
    unfold parseRuns
    by_cases hlt : p < buf.length
    · rw [if_pos hlt]
      constructor
      · intro h
        obtain ⟨⟨mid, q⟩, hrun, h⟩ := bind_eq_ok.mp h
        obtain ⟨g, hg, rfl, rfl⟩ := (parseRun_eq_ok hw).mp hrun
        have hpos := List.length_pos_of_ne_nil g.encode_ne_nil
        have hfit := hg.le g.encode_ne_nil
        obtain ⟨gs, hgs, rfl⟩ := (ih hfit (by omega)).mp h
        refine ⟨g :: gs, ?_, ?_⟩
        · rw [List.map_cons, List.flatten_cons, ← hgs]
          exact hg
        · rw [List.flatMap_cons, List.append_assoc]
      · rintro ⟨gs, hgs, rfl⟩
        cases gs with
        | nil =>
          rw [List.map_nil, List.flatten_nil, List.drop_eq_nil_iff] at hgs
          omega
        | cons g gs =>
          rw [List.map_cons, List.flatten_cons] at hgs
          obtain ⟨hg, hrest⟩ := spells_of_drop hgs
          have hpos := List.length_pos_of_ne_nil g.encode_ne_nil
          have hfit := hg.le g.encode_ne_nil
          rw [(parseRun_eq_ok hw).mpr ⟨g, hg, rfl, rfl⟩, ok_bind]
          refine (ih hfit (by omega)).mpr ⟨gs, hrest, ?_⟩
          rw [List.flatMap_cons, List.append_assoc]
    · rw [if_neg hlt]
      exact groups_at_end (Nat.le_of_not_lt hlt)

/-- **The parser accepts exactly the grammar** and refuses every other buffer. -/
theorem parseListing_iff {buf : Bytes} (hw : buf.length ≤ isizeMax) :
    (∀ entries, parseListing buf = .ok entries ↔
      ∃ gs : List StoredGroup, buf = (gs.map StoredGroup.encode).flatten ∧
        entries = gs.flatMap StoredGroup.dirEntries) ∧
      ((¬ ∃ gs : List StoredGroup, buf = (gs.map StoredGroup.encode).flatten) →
        ∃ e, parseListing buf = .error (.err e)) := by
  have hiff : ∀ entries, parseListing buf = .ok entries ↔
      ∃ gs : List StoredGroup, buf = (gs.map StoredGroup.encode).flatten ∧
        entries = gs.flatMap StoredGroup.dirEntries := by
    intro entries
    have h := @parseRuns_eq_ok buf buf.length 0 [] entries hw (Nat.zero_le _) (Nat.le_refl _)
    rw [List.drop_zero] at h
    exact h
  refine ⟨hiff, fun hnone => ?_⟩
  rcases (safe_parseListing hw).returns.cases with ⟨entries, hok⟩ | herr
  · obtain ⟨gs, hgs, -⟩ := (hiff entries).mp hok
    exact absurd ⟨gs, hgs⟩ hnone
  · exact herr

/-- A listing the parser accepts is one group of two entries, one of them numbered below its
header's base. -/
theorem parseListing_iff_sample :
    ∃ gs : List StoredGroup,
      [1, 0, 0, 0, 5, 0, 0, 0, 9, 0, 0, 0, 32, 0, 0xFF, 0xFF, 2, 0, 0, 0, 0x61,
        64, 0, 1, 0, 1, 0, 1, 0, 0x62, 0x2E] = (gs.map StoredGroup.encode).flatten ∧
      [⟨[0x61], 5 * 65536 + 32, 2, 8⟩, ⟨[0x62, 0x2E], 5 * 65536 + 64, 1, 10⟩] =
        gs.flatMap StoredGroup.dirEntries :=
  ((parseListing_iff (by decide)).1 _).mp (by decide)

end Squashfs
