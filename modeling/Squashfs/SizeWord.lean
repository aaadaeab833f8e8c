import Squashfs.File
import Squashfs.Image

/-!
# Size words

About `read_logical_block` (`src/fs.rs:681-741`). A data block's size word gives its payload's
length in the low 24 bits and how it is stored in bit 24; the word zero stands for a block of zeros.
The reader tests the masked length for that (693), and not the word, so a word that is not zero and
has no length reads as zeros too.

**`trueBytes_iff`**: the bytes of a read come from decoding their blocks' payloads, blocks of the
word zero apart, exactly when the read meets no such word or needs a block that is not there.
-/

namespace Squashfs

open Foundation

/-- A size word that is not zero but gives its payload no bytes. -/
def EmptyPayload (sizeWord : UInt32) : Prop :=
  sizeWord ≠ 0 ∧ (dataOnDiskSize sizeWord).toNat = 0

/-- The sample image with its file's size word changed to one that says 'stored uncompressed,
no bytes'. -/
def PlainImage.emptyPayload : PlainImage where
  rootInodeRef := 0
  inodes :=
    InodeRecord.encode ⟨0x1ED, 0, 0, 0, 1⟩ (.basicDir 0 2 24 0 1) ++
      InodeRecord.encode ⟨0x1A4, 0, 0, 0, 2⟩ (.basicFile 96 SQUASHFS_INVALID_FRAG 0 3 [0x1000000])
  listings := PlainImage.sample.listings
  ids := [0]
  pairs := []
  sets := []

/-- The file of that image. -/
def PlainImage.emptyFile : Inode :=
  InodeRecord.toInode ⟨0x1A4, 0, 0, 0, 2⟩ (.basicFile 96 SQUASHFS_INVALID_FRAG 0 3 [0x1000000])

theorem PlainImage.emptyPayload_lt : PlainImage.emptyPayload.bytes.length < wordSize := by
  decide +kernel

namespace Filesystem

variable {codecs : Codecs} {fs : Filesystem} {inode : Inode}

/-- `block` is what the on-disk payload of full data block `i` decodes to, and is as long as the
block is. -/
def DecodesTo (codecs : Codecs) (fs : Filesystem) (inode : Inode) (i : Nat) (sizeWord : UInt32)
    (block : Bytes) : Prop :=
  block.length = fs.blockLen inode i ∧
    ∃ payload, fs.dev.read (blockOffset inode i) (dataOnDiskSize sizeWord).toNat = .ok payload ∧
      if dataIsCompressed sizeWord then
        decompress codecs fs.comp payload (fs.blockLen inode i) = .ok block
      else block = payload

/-- Every byte a read that succeeds takes from a full data block whose size word is not zero comes
from decoding that block's payload, and no such word is without one. -/
def TrueBytes (codecs : Codecs) (fs : Filesystem) (inode : Inode) (offset : UInt64)
    (buf : Bytes) : Prop :=
  ∀ n out, Stateful.exec (fs.answers codecs) (fs.readFile inode offset) buf = (.ok n, out) →
    ∀ k sizeWord, k < n → let p := offset.toNat + k
      inode.blockSizes[p / fs.sb.blockSize.toNat]? = some sizeWord → sizeWord ≠ 0 →
        (dataOnDiskSize sizeWord).toNat ≠ 0 ∧
          ∃ block, fs.DecodesTo codecs inode (p / fs.sb.blockSize.toNat) sizeWord block ∧
            out[k]? = block[p % fs.sb.blockSize.toNat]?

/-- A full data block that is there and has a payload is what the payload decodes to. -/
theorem decodesTo_of_dataBlock {i : Nat} {sizeWord : UInt32} {b : Bytes}
    (hword : inode.blockSizes[i]? = some sizeWord) (hsize : (dataOnDiskSize sizeWord).toNat ≠ 0)
    (hb : fs.dataBlock (fs.answers codecs) inode i = some b) :
    fs.DecodesTo codecs inode i sizeWord b := by
  unfold dataBlock at hb
  rw [hword, Option.bind_eq_bind, Option.bind_some, if_neg hsize] at hb
  obtain ⟨block, hblock, hb⟩ := Option.bind_eq_some_iff.mp hb
  rcases ite_eq_iff.mp hb with ⟨hlen, hb⟩ | ⟨_, hb⟩
  · cases hb
    refine ⟨hlen, ?_⟩
    have hdecode : decodeDataBlock codecs fs.dev fs.sb fs.comp (blockOffset inode i) sizeWord
        (fs.blockLen inode i) = .ok b := toOption_eq_some.mp hblock
    unfold decodeDataBlock at hdecode
    rcases ite_eq_iff.mp hdecode with ⟨_, h⟩ | ⟨_, h⟩
    · cases h
    obtain ⟨payload, hread, h⟩ := bind_eq_ok.mp h
    refine ⟨payload, hread, ?_⟩
    rcases ite_eq_iff.mp h with ⟨hcomp, h⟩ | ⟨hraw, h⟩
    · rw [if_pos hcomp]
      exact h
    · rw [if_neg hraw]
      rcases ite_eq_iff.mp h with ⟨_, h⟩ | ⟨_, h⟩
      · cases h
      · cases h
        rfl
  · cases hb

/-- Byte `p` of a file is byte `p % block_size` of its block. -/
theorem fileBytes_getElem? {f : ∀ q, Reply q} (hgeo : inode.Geometry fs.sb)
    (hfile : inode.isRegularFile = true) {p : Nat} (hp : p < inode.fileSize.toNat) {b : Bytes}
    (hb : fs.logicalBlock f inode (p / fs.sb.blockSize.toNat) = some b) :
    (fs.fileBytes f inode)[p]? = b[p % fs.sb.blockSize.toNat]? := by
  have hin := fs.block_start_lt hp
  have hlen := (readLogicalBlock_some hgeo hfile hin hb).1
  have hlt := fs.position_lt_blockLen hp
  have hwindow := @fileBytes_window f fs inode hgeo hfile _ (p % fs.sb.blockSize.toNat) 1 hin b hb
    (by omega)
  rw [Nat.div_add_mod'] at hwindow
  have h0 := congrArg (·[0]?) hwindow
  simpa using h0

/-- **A read gives true bytes exactly when** it meets no size word without a payload that is not
zero, or needs a block that is not there. -/
theorem trueBytes_iff (codecs : Codecs) (fs : Filesystem) {inodeRef : UInt64} {inode : Inode}
    (hread : Asking.exec (fs.answers codecs) (fs.readInode inodeRef) = .ok inode)
    (hfile : inode.isRegularFile = true) (offset : UInt64) (buf : Bytes) :
    let n := min buf.length (inode.fileSize.toNat - offset.toNat)
    fs.TrueBytes codecs inode offset buf ↔
      (∀ k < n, ∀ sizeWord,
        inode.blockSizes[(offset.toNat + k) / fs.sb.blockSize.toNat]? = some sizeWord →
          ¬ EmptyPayload sizeWord) ∨
        ¬ fs.Available (fs.answers codecs) inode offset.toNat (offset.toNat + n) := by
  intro n
  have hgeo := Inode.geometry_of_read (fs.tame_answers codecs) hread
  have hexact := readFile_exact codecs fs hread hfile offset buf
  dsimp only at hexact
  obtain ⟨hnothing, hsome⟩ := hexact
  by_cases htrivial : inode.fileSize ≤ offset ∨ buf = []
  · have hn : n = 0 := by
      rcases htrivial with h | rfl
      · have := UInt64.le_iff_toNat_le.mp h
        omega
      · exact Nat.zero_min _
    refine ⟨fun _ => .inl fun k hk => by omega, fun _ m out hok k _ hk => ?_⟩
    rw [hnothing htrivial] at hok
    cases hok
    exact absurd hk (Nat.not_lt_zero k)
  rw [not_or, UInt64.not_le] at htrivial
  obtain ⟨hlt, hbuf⟩ := htrivial
  have hlt' := UInt64.lt_iff_toNat_lt.mp hlt
  by_cases hav : fs.Available (fs.answers codecs) inode offset.toNat (offset.toNat + n)
  · have hok := (hsome hlt hbuf).1 hav
    constructor
    · intro htrue
      refine .inl fun k hk sizeWord hword hempty => ?_
      exact (htrue _ _ hok k sizeWord hk hword hempty.1).1 hempty.2
    · rintro (hgood | hnot)
      · intro m out hread' k sizeWord hk p hword hne
        rw [hok] at hread'
        cases hread'
        have hsize : (dataOnDiskSize sizeWord).toNat ≠ 0 :=
          fun h0 => hgood k hk sizeWord hword ⟨hne, h0⟩
        have hp : p < inode.fileSize.toNat := by omega
        have hover : fs.Overlaps offset.toNat (offset.toNat + n) (p / fs.sb.blockSize.toNat) := by
          have hle := Nat.div_mul_le_self p fs.sb.blockSize.toNat
          have hmul : p < (p / fs.sb.blockSize.toNat + 1) * fs.sb.blockSize.toNat :=
            Nat.lt_mul_of_div_lt (Nat.lt_succ_self _) fs.sb.blockSize_pos
          exact ⟨by omega, by omega⟩
        obtain ⟨b, hb⟩ := Option.ne_none_iff_exists'.mp (hav _ hover)
        have hdata := hb
        unfold logicalBlock at hdata
        rw [if_pos (List.getElem?_eq_some_iff.mp hword).1] at hdata
        have hdecodes := decodesTo_of_dataBlock hword hsize hdata
        have hbyte := fileBytes_getElem? hgeo hfile hp hb
        have hin : p % fs.sb.blockSize.toNat < b.length := by
          rw [hdecodes.1]
          exact fs.position_lt_blockLen hp
        have htaken : (((fs.fileBytes (fs.answers codecs) inode).drop offset.toNat).take n)[k]? =
            b[p % fs.sb.blockSize.toNat]? := by
          rw [List.getElem?_take_of_lt hk, List.getElem?_drop]
          exact hbyte
        refine ⟨hsize, b, hdecodes, ?_⟩
        rw [List.getElem?_append_left, htaken]
        rw [List.getElem?_eq_getElem hin] at htaken
        exact (List.getElem?_eq_some_iff.mp htaken).1
      · exact absurd hav hnot
  · obtain ⟨e, he⟩ := (hsome hlt hbuf).2 hav
    refine ⟨fun _ => .inr hav, fun _ m out hok => ?_⟩
    rw [hok] at he
    cases he

/-- Its image, opened. -/
def emptyPayload : Filesystem :=
  { sample with
    dev := Device.ofBytes PlainImage.emptyPayload.bytes PlainImage.emptyPayload_lt
    sb := PlainImage.emptyPayload.superblock }

set_option maxRecDepth 10000 in
/-- **A word that says 'no bytes' reads as zeros**: the image opens, and the read succeeds and
gives three zeros that no payload decodes to. -/
theorem empty_payload_reads_zeros :
    openImage .through .none (Device.ofBytes PlainImage.emptyPayload.bytes
        PlainImage.emptyPayload_lt) = .ok emptyPayload ∧
      Asking.exec (emptyPayload.answers .none) (emptyPayload.lookupPathBytes [0x61]) =
        .ok PlainImage.emptyFile ∧
      Stateful.exec (emptyPayload.answers .none) (emptyPayload.readFile PlainImage.emptyFile 0)
        [7, 7, 7] = (.ok 3, [0, 0, 0]) ∧
      ¬ emptyPayload.TrueBytes .none PlainImage.emptyFile 0 [7, 7, 7] := by
  have hread : Stateful.exec (emptyPayload.answers .none)
      (emptyPayload.readFile PlainImage.emptyFile 0) [7, 7, 7] = (.ok 3, [0, 0, 0]) := by
    decide +kernel
  refine ⟨rfl, by decide +kernel, hread, fun htrue => ?_⟩
  exact (htrue 3 [0, 0, 0] hread 0 0x1000000 (by decide) (by decide) (by decide)).1 (by decide)

/-- The sample file's bytes are true. -/
theorem trueBytes_iff_sample : sample.TrueBytes .none PlainImage.sampleFile 1 [0, 0, 0] := by
  have hread : Asking.exec (sample.answers .none) (sample.readInode 32) =
      .ok PlainImage.sampleFile := by decide +kernel
  refine (trueBytes_iff .none sample hread rfl 1 [0, 0, 0]).mpr (.inl fun k hk sizeWord hword => ?_)
  have hk : k < 2 := hk
  have hblock : ((1 : UInt64).toNat + k) / sample.sb.blockSize.toNat = 0 :=
    Nat.div_eq_of_lt (show 1 + k < 4096 by omega)
  rw [hblock] at hword
  cases hword
  exact fun hempty => absurd hempty.2 (by decide)

end Filesystem

end Squashfs
