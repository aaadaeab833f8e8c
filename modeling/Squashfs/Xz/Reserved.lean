import Squashfs.Xz.Acceptance

/-!
# What the .xz decoder leaves unchecked

About `decompress_with` (`src/xz.rs:97-259`) beside the format. The decoder accepts stored streams
(`decompress_eq_ok`), and the format asks two things more of one: the high bits of the second flag
byte are reserved, and a converter's start offset is a multiple of its alignment.

**`accepts_wellFormed_iff`**: what is accepted is well formed exactly when the stored streams are in
the format. Both are about the same blocks, as a stream is stored in one way (`Stored.unique`).
-/

namespace Squashfs.Xz

open Foundation

variable {codecs : Codecs}

/-! ## What the format asks besides -/

/-- A converter and an offset it can start at. -/
def BlockHeader.Aligned (h : BlockHeader) : Prop := ∀ f ∈ h.bcj, f.1.alignment ∣ f.2.toNat

theorem Header.aligned_iff (h : Header) :
    h.toBlockHeader.Aligned ↔ ∀ c ∈ h.converter, c.Aligned := by
  unfold BlockHeader.Aligned toBlockHeader
  cases h.converter with
  | none => simp
  | some c => simp [Converter.Aligned]

/-- The reserved bits of the second flag byte are zero, and every converter starts at an offset
it can start at. -/
structure InFormat (second : UInt8) (bs : List Block) : Prop where
  reserved : second &&& 0xF0 = 0
  starts : ∀ b ∈ bs, ∀ c ∈ b.header.converter, c.Aligned

theorem inFormat_iff {second : UInt8} {bs : List Block} : InFormat second bs ↔
    second &&& 0xF0 = 0 ∧ ∀ h ∈ bs.map (·.header.toBlockHeader), h.Aligned := by
  rw [List.forall_mem_map]
  constructor
  · rintro ⟨hreserved, hstarts⟩
    exact ⟨hreserved, fun b hb => b.header.aligned_iff.mpr (hstarts b hb)⟩
  · rintro ⟨hreserved, hstarts⟩
    exact ⟨hreserved, fun b hb => b.header.aligned_iff.mp (hstarts b hb)⟩

/-- A well-formed stream that holds `out`. -/
def WellFormed (codecs : Codecs) (stream out : Bytes) : Prop :=
  ∃ second bs, Stored codecs stream second bs ∧ InFormat second bs ∧
    out = bs.flatMap Block.contents

/-- **What the decoder accepts is well formed exactly when** a stream that is stored, with contents
that fit, has its reserved flag bits zero and its converters' starts aligned. -/
theorem accepts_wellFormed_iff {stream : Bytes} (hw : stream.length ≤ isizeMax) {maxOut : Nat}
    (hmax : maxOut < wordSize) :
    (∀ out, decompress codecs stream maxOut = .ok out →
        out.length ≤ maxOut ∧ WellFormed codecs stream out) ↔
      ∀ second bs, Stored codecs stream second bs →
        (bs.flatMap Block.contents).length ≤ maxOut → InFormat second bs := by
  constructor
  · intro h second bs hstored hfit
    obtain ⟨-, second', bs', hstored', hformat, -⟩ :=
      h _ ((decompress_eq_ok hw hmax).mpr ⟨second, bs, hstored, rfl, hfit⟩)
    obtain ⟨rfl, hsame, -⟩ := hstored.unique hw hstored'
    rw [inFormat_iff, hsame]
    exact inFormat_iff.mp hformat
  · intro h out hout
    obtain ⟨second, bs, hstored, rfl, hfit⟩ := (decompress_eq_ok hw hmax).mp hout
    exact ⟨hfit, second, bs, hstored, h second bs hstored hfit, rfl⟩

/-! ## A stream with a reserved bit set -/

/-- One block, `a` behind an x86 converter, in a stream whose second flag byte is `second`. -/
def rawBlock : Block where
  header := ⟨2, none, none, some ⟨.x86, none⟩, 0, 1⟩
  coded := [1, 0, 0, 0x61, 0]
  plain := [0x61]
  contents := [0x61]
  check := u32Bytes (crc32 [0x61])

/-- The block is sound whatever follows it. -/
theorem rawBlock_sound {codecs : Codecs} (hlzma2 : codecs.lzma2 = rawChunk)
    (hcrc32 : codecs.crc32 = crc32) (rest : Bytes) : rawBlock.Sound codecs 0x01 rest := by
  have hchunk : codecs.lzma2 (rawBlock.input rest) = rawChunk (rawBlock.payload ++ rest) := by
    rw [hlzma2]
    rfl
  have hdecode : (rawChunk (rawBlock.payload ++ rest)).1.succeeds = true ∧
      (rawChunk (rawBlock.payload ++ rest)).1.chunks = [[0x61]] ∧
      (rawChunk (rawBlock.payload ++ rest)).2 = 5 := by
    have hpayload : rawBlock.payload ++ rest =
        1 :: 0 :: 0 :: 0x61 :: 0 :: (padTo4 5 ++ u32Bytes (crc32 [0x61]) ++ rest) := rfl
    rw [hpayload]
    simp [rawChunk]
  refine {
    header := ⟨⟨nofun, nofun, by decide⟩, by decide, by decide +kernel⟩
    decodes := hchunk ▸ hdecode.1
    plain := by rw [hchunk, hdecode.2.1]; rfl
    coded := by rw [hchunk, hdecode.2.2]; rfl
    compressed := nofun
    uncompressed := nofun
    converts := (by decide +kernel : decode .x86 0 [0x61] = .ok [0x61])
    checked := by rw [checkBytes, if_neg (by decide), if_pos rfl, hcrc32]; rfl }

def rawTail (second : UInt8) : Bytes :=
  indexBytes rawCodecs [rawBlock] ++ footerBytes rawCodecs 1 [0, second]

def rawStream (second : UInt8) : Bytes :=
  STREAM_MAGIC ++ ([0, second] ++ (u32Bytes (crc32 [0, second]) ++
    (rawBlock.encode rawCodecs ++ rawTail second)))

/-- The stream is stored as it says, whatever its reserved bits. -/
theorem rawStream_stored {second : UInt8} (hsecond : second = 0x01 ∨ second = 0x11) :
    Stored rawCodecs (rawStream second) second [rawBlock] := by
  have hcheck : second &&& 0x0F = 0x01 := by rcases hsecond with rfl | rfl <;> decide
  have hsound : rawBlock.Sound rawCodecs (second &&& 0x0F) (rawTail second) :=
    hcheck ▸ rawBlock_sound rfl rfl _
  refine ⟨by rcases hsecond with rfl | rfl <;> decide, _, _, rfl, .cons hsound (.nil _), ?_, 1, 0,
    by decide +kernel, by rw [Nat.mul_zero, List.replicate_zero, List.append_nil]; rfl⟩
  intro b hb
  obtain rfl := List.mem_singleton.mp hb
  exact ⟨by decide +kernel, by decide⟩

/-- The stream with no reserved bit set is accepted, and well formed. -/
theorem accepts_wellFormed_sample :
    decompress rawCodecs (rawStream 0x01) 8192 = .ok [0x61] ∧
      WellFormed rawCodecs (rawStream 0x01) [0x61] := by
  have hout : decompress rawCodecs (rawStream 0x01) 8192 = .ok [0x61] := by decide +kernel
  refine ⟨hout, ((accepts_wellFormed_iff (by decide +kernel) (by decide)).mpr ?_ _ hout).2⟩
  intro second bs hstored _
  obtain ⟨rfl, hsame, -⟩ := hstored.unique (by decide +kernel) (rawStream_stored (.inl rfl))
  rw [inFormat_iff, hsame, ← inFormat_iff]
  refine ⟨by decide, fun b hb c hc => ?_⟩
  obtain rfl := List.mem_singleton.mp hb
  cases hc
  exact Nat.one_dvd _

/-- A stream with a reserved flag bit set is accepted. -/
theorem reserved_bit_accepted :
    decompress rawCodecs (rawStream 0x11) 8192 = .ok [0x61] ∧
      ¬ WellFormed rawCodecs (rawStream 0x11) [0x61] := by
  refine ⟨by decide +kernel, ?_⟩
  rintro ⟨second, bs, hstored, hformat, -⟩
  obtain ⟨rfl, -⟩ := hstored.unique (by decide +kernel) (rawStream_stored (.inr rfl))
  exact absurd hformat.reserved (by decide)

end Squashfs.Xz
