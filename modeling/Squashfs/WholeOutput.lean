import Squashfs.Decompress
import Squashfs.Xz.Reserved

/-!
# Whole outputs

About `decompress` (`src/decompress.rs:99-240`) with its bound on a block's length. Five codecs keep
to it in three ways: zlib and LZ4 fill a buffer of that size and tell when it is too small
(`FixedBuffers`), LZMA and xz write into a sink that refuses to grow, zstd is read up to one byte
past the bound.

**`decompress_complete`**: in all of them a block decompresses exactly when its decoder succeeds
with an output that fits, and to the whole of it (`Whole`); and no sink that it decodes into ever
holds more than one byte past the bound, though each output was held whole.

Out of scope: LZO, which takes the bound itself, and what a decoder allocates for its own use.
-/

namespace Squashfs

open Foundation Foundation.Metered

namespace Decoding

def output (d : Decoding) : Bytes := d.chunks.flatten

/-- The decoder succeeds, with `out` written in all. -/
def Gives (d : Decoding) (out : Bytes) : Prop := d.succeeds = true ∧ out = d.output

theorem Gives.unique {d : Decoding} {out out' : Bytes} (h : d.Gives out) (h' : d.Gives out') :
    out = out' := h.2.trans h'.2.symm

end Decoding

/-- The decoders that fill a buffer: each gives what it decodes when the buffer holds it, and
fails, or reports another status, when it does not or when there is nothing to give. -/
structure FixedBuffers (codecs : Codecs) (zlib lz4 : Bytes → Decoding) : Prop where
  inflate_fits : ∀ {input out n}, (zlib input).Gives out → out.length ≤ n →
    codecs.inflate input n = some (out, .streamEnd)
  inflate_ends : ∀ {input out n}, codecs.inflate input n = some (out, .streamEnd) →
    ∃ all, (zlib input).Gives all ∧ all.length ≤ n
  lz4_fits : ∀ {input out n}, (lz4 input).Gives out → out.length ≤ n →
    codecs.lz4 input n = some out
  lz4_ends : ∀ {input out n}, codecs.lz4 input n = some out →
    ∃ all, (lz4 input).Gives all ∧ all.length ≤ n

/-- `out` is all that the decoder of `comp` makes of `input`. -/
def Whole (codecs : Codecs) (zlib lz4 : Bytes → Decoding) (comp : Compressor) (input out : Bytes) :
    Prop :=
  match comp with
  | .gzip => (zlib input).Gives out
  | .lzma => (codecs.lzma input).Gives out
  | .lzo => False
  | .xz =>
    Xz.hasFilters input = .ok false ∧ (codecs.xz input).Gives out ∨
      Xz.hasFilters input = .ok true ∧
        ∃ second bs, Xz.Stored codecs input second bs ∧ out = bs.flatMap Xz.Block.contents
  | .lz4 => (lz4 input).Gives out
  | .zstd => ∃ d, codecs.zstd input = some d ∧ d.Gives out

variable {codecs : Codecs} {zlib lz4 : Bytes → Decoding} {comp : Compressor} {input out : Bytes}
  {maxOut : Nat}

theorem Whole.unique (hin : input.length ≤ isizeMax) {out' : Bytes}
    (h : Whole codecs zlib lz4 comp input out) (h' : Whole codecs zlib lz4 comp input out') :
    out = out' := by
  cases comp with
  | gzip => exact Decoding.Gives.unique h h'
  | lzma => exact Decoding.Gives.unique h h'
  | lzo => cases h
  | lz4 => exact Decoding.Gives.unique h h'
  | zstd =>
    obtain ⟨d, hd, h⟩ := h
    obtain ⟨d', hd', h'⟩ := h'
    rw [hd] at hd'
    cases hd'
    exact h.unique h'
  | xz =>
    rcases h with ⟨hf, h⟩ | ⟨hf, second, bs, h, rfl⟩ <;>
      rcases h' with ⟨hf', h'⟩ | ⟨hf', second', bs', h', rfl⟩
    · exact h.unique h'
    · rw [hf] at hf'
      cases hf'
    · rw [hf] at hf'
      cases hf'
    · exact (h.unique hin h').2.2

/-! ## The bound, codec by codec -/

theorem withinMax_eq_ok {out' : Bytes} :
    withinMax maxOut out' = .ok out ↔ out = out' ∧ out.length ≤ maxOut := by
  unfold withinMax
  constructor
  · intro h
    split at h
    · cases h
    · rename_i hle
      cases h
      exact ⟨rfl, Nat.le_of_not_lt hle⟩
  · rintro ⟨rfl, hfit⟩
    exact if_neg (Nat.not_lt_of_le hfit)

theorem decompressZlib_eq_ok (hfixed : FixedBuffers codecs zlib lz4) :
    (decompressZlib codecs input maxOut).result = .ok out ↔
      (zlib input).Gives out ∧ out.length ≤ maxOut := by
  rw [result_decompressZlib]
  constructor
  · intro h
    split at h
    · cases h
    · rename_i out' status hinflate
      split at h
      · cases h
      rename_i hstatus
      obtain rfl := not_not.mp hstatus
      obtain ⟨rfl, -⟩ := withinMax_eq_ok.mp h
      obtain ⟨all, hall, hfit⟩ := hfixed.inflate_ends hinflate
      have hsame := hfixed.inflate_fits hall hfit
      rw [hinflate] at hsame
      cases hsame
      exact ⟨hall, hfit⟩
  · rintro ⟨hgives, hfit⟩
    rw [hfixed.inflate_fits hgives hfit]
    exact withinMax_eq_ok.mpr ⟨rfl, hfit⟩

theorem decompressLz4_eq_ok (hfixed : FixedBuffers codecs zlib lz4) :
    (decompressLz4 codecs input maxOut).result = .ok out ↔
      (lz4 input).Gives out ∧ out.length ≤ maxOut := by
  rw [result_decompressLz4]
  constructor
  · intro h
    split at h
    · rename_i hlz4
      cases h
      obtain ⟨all, hall, hfit⟩ := hfixed.lz4_ends hlz4
      have hsame := hfixed.lz4_fits hall hfit
      rw [hlz4] at hsame
      cases hsame
      exact ⟨hall, hfit⟩
    · cases h
  · rintro ⟨hgives, hfit⟩
    rw [hfixed.lz4_fits hgives hfit]

/-- The sink's extra byte tells an output of `maxOut` bytes from a longer one. -/
theorem decodeCapped_eq_ok {why : String} {d : Decoding} (hmax : maxOut < isizeMax) :
    (decodeCapped why d maxOut).result = .ok out ↔ d.Gives out ∧ out.length ≤ maxOut := by
  have hlimit : saturatingAdd maxOut 1 = maxOut + 1 :=
    saturatingAdd_eq (by unfold isizeMax wordSize at *; omega)
  rw [result_decodeCapped]
  constructor
  · intro h
    obtain ⟨sink, hinto, h⟩ := bind_eq_ok.mp h
    obtain ⟨hs, rfl, -⟩ := Decoding.into_eq_ok (mapErr_eq_ok.mp hinto)
    obtain ⟨rfl, hfit⟩ := withinMax_eq_ok.mp h
    exact ⟨⟨hs, rfl⟩, hfit⟩
  · rintro ⟨⟨hs, rfl⟩, hfit⟩
    have hroom : ([] : Bytes).length + d.output.length ≤ saturatingAdd maxOut 1 := by
      rw [hlimit, List.length_nil]
      omega
    have hinto : (d.into (.holding maxOut)).result =
        .ok { Capped.holding maxOut with buf := [] ++ d.output } :=
      Decoding.into_fits hs hroom (saturatingAdd_lt _ _)
    rw [hinto]
    exact withinMax_eq_ok.mpr ⟨rfl, hfit⟩

theorem decompressZstd_eq_ok (hmax : maxOut < isizeMax) :
    (decompressZstd codecs input maxOut).result = .ok out ↔
      (∃ d, codecs.zstd input = some d ∧ d.Gives out) ∧ out.length ≤ maxOut := by
  have hlimit : saturatingAdd maxOut 1 = maxOut + 1 :=
    saturatingAdd_eq (by unfold isizeMax wordSize at *; omega)
  rw [result_decompressZstd, hlimit]
  cases hzstd : codecs.zstd input with
  | none => simp
  | some d =>
    simp only [Option.some.injEq, exists_eq_left']
    rw [bind_eq_ok]
    simp only [mapErr_eq_ok, withinMax_eq_ok, Decoding.result_takeToEnd]
    constructor
    · rintro ⟨taken, htaken, rfl, hfit⟩
      split at htaken
      · rename_i hread
        cases htaken
        -- fewer bytes than were asked for: the decoder came to its end
        have hshort : d.chunks.flatten.length ≤ maxOut := by
          rw [List.length_take] at hfit
          omega
        rw [List.take_of_length_le (Nat.le_succ_of_le hshort)]
        exact ⟨⟨hread.resolve_left (Nat.not_le_of_lt (Nat.lt_succ_of_le hshort)), rfl⟩, hshort⟩
      · cases htaken
    · rintro ⟨⟨hs, rfl⟩, hfit⟩
      refine ⟨d.output, ?_, rfl, hfit⟩
      rw [if_pos (.inr hs)]
      exact congrArg Except.ok (List.take_of_length_le (Nat.le_succ_of_le hfit))

theorem decompressXz_eq_ok (hin : input.length ≤ isizeMax) (hmax : maxOut < isizeMax) :
    (decompressXz codecs input maxOut).result = .ok out ↔
      Whole codecs zlib lz4 .xz input out ∧ out.length ≤ maxOut := by
  rw [result_decompressXz, bind_eq_ok]
  unfold Whole
  constructor
  · rintro ⟨filtered, hfiltered, h⟩
    cases filtered with
    | false =>
      obtain ⟨hgives, hfit⟩ := (decodeCapped_eq_ok hmax).mp h
      exact ⟨.inl ⟨hfiltered, hgives⟩, hfit⟩
    | true =>
      obtain ⟨second, bs, hstored, rfl, hfit⟩ :=
        (Xz.decompress_eq_ok hin (Nat.lt_trans hmax (by decide))).mp h
      exact ⟨.inr ⟨hfiltered, second, bs, hstored, rfl⟩, hfit⟩
  · rintro ⟨⟨hfiltered, hgives⟩ | ⟨hfiltered, second, bs, hstored, rfl⟩, hfit⟩
    · exact ⟨false, hfiltered, (decodeCapped_eq_ok hmax).mpr ⟨hgives, hfit⟩⟩
    · exact ⟨true, hfiltered, (Xz.decompress_eq_ok hin (Nat.lt_trans hmax (by decide))).mpr
        ⟨second, bs, hstored, rfl, hfit⟩⟩

theorem decompress_eq_ok_whole (hfixed : FixedBuffers codecs zlib lz4) (hcomp : comp ≠ .lzo)
    (hin : input.length ≤ isizeMax) (hmax : maxOut < isizeMax) :
    decompress codecs comp input maxOut = .ok out ↔
      Whole codecs zlib lz4 comp input out ∧ out.length ≤ maxOut := by
  cases comp with
  | gzip => exact decompressZlib_eq_ok hfixed
  | lzma => exact decodeCapped_eq_ok hmax
  | lzo => exact absurd rfl hcomp
  | xz => exact decompressXz_eq_ok hin hmax
  | lz4 => exact decompressLz4_eq_ok hfixed
  | zstd => exact decompressZstd_eq_ok hmax

/-! ## Complete and bounded -/

/-- **A block decompresses exactly to its decoder's whole output, when that fits**: any longer
output, and any failure of the decoder, is an error; a larger bound changes no success. At every
moment of it, whatever it ends in, the buffers and sinks hold one byte more than the bound at most,
and all that is given was held at one of them; a chunk refused leaves a sink as it was. -/
theorem decompress_complete (hfixed : FixedBuffers codecs zlib lz4) (hcomp : comp ≠ .lzo)
    (hin : input.length ≤ isizeMax) (hmax : maxOut < isizeMax) :
    (∀ out, decompress codecs comp input maxOut = .ok out ↔
      Whole codecs zlib lz4 comp input out ∧ out.length ≤ maxOut) ∧
    (∀ out, Whole codecs zlib lz4 comp input out → maxOut < out.length →
      ∃ e, decompress codecs comp input maxOut = fails e) ∧
    ((∀ out, ¬ Whole codecs zlib lz4 comp input out) →
      ∃ e, decompress codecs comp input maxOut = fails e) ∧
    (∀ out larger, decompress codecs comp input maxOut = .ok out → maxOut ≤ larger →
      larger < isizeMax → decompress codecs comp input larger = .ok out) ∧
    (decompressM codecs comp input maxOut).result = decompress codecs comp input maxOut ∧
    (∀ held ∈ (decompressM codecs comp input maxOut).readings, held ≤ maxOut + 1) ∧
    (∀ out, decompress codecs comp input maxOut = .ok out → out = [] ∨
      ∃ held ∈ (decompressM codecs comp input maxOut).readings, out.length ≤ held) ∧
    ∀ (s s' : Capped) chunk f, s.write chunk = (.error f, s') → s' = s := by
  have hok : ∀ {out}, decompress codecs comp input maxOut = .ok out ↔
      Whole codecs zlib lz4 comp input out ∧ out.length ≤ maxOut :=
    decompress_eq_ok_whole hfixed hcomp hin hmax
  have herr : (∀ out, Whole codecs zlib lz4 comp input out → maxOut < out.length) →
      ∃ e, decompress codecs comp input maxOut = fails e := by
    intro hlong
    rcases (safe_decompress codecs comp hin hmax).returns.cases with ⟨out, h⟩ | h
    · obtain ⟨hwhole, hfit⟩ := hok.mp h
      exact absurd (hlong out hwhole) (Nat.not_lt_of_le hfit)
    · exact h
  refine ⟨fun _ => hok, ?_, ?_, ?_, rfl, (below_decompress codecs comp input hmax).readings_le,
    ?_, ?_⟩
  · intro out hwhole hlong
    exact herr fun out' hwhole' => by rwa [hwhole'.unique hin hwhole]
  · intro hnone
    exact herr fun out hwhole => absurd hwhole (hnone out)
  · intro out larger h hle hlarger
    obtain ⟨hwhole, hfit⟩ := hok.mp h
    exact (decompress_eq_ok_whole hfixed hcomp hin hlarger).mpr ⟨hwhole, hfit.trans hle⟩
  · intro out h
    exact ((covers_decompress codecs input maxOut hcomp).read h).imp_left
      List.eq_nil_of_length_eq_zero
  · intro s s' chunk f h
    exact Capped.write_error h

/-! ## Decoders of two short blocks -/

/-- Codecs whose fixed-buffer decoders are two given ones, run into the buffer. -/
def Codecs.filling (codecs : Codecs) (zlib lz4 : Bytes → Decoding) : Codecs :=
  { codecs with
    inflate := fun input n =>
      if (zlib input).succeeds then
        if (zlib input).output.length ≤ n then some ((zlib input).output, .streamEnd)
        else some ((zlib input).output.take n, .bufError)
      else Option.none
    lz4 := fun input n =>
      if (lz4 input).succeeds ∧ (lz4 input).output.length ≤ n then some (lz4 input).output
      else Option.none
    inflate_le := by
      intro input n out status h
      split at h
      · split at h <;> cases h
        · assumption
        · exact List.length_take_le _ _
      · cases h
    lz4_le := by
      intro input n out h
      split at h <;> cases h
      rename_i hfit
      exact hfit.2 }

theorem fixedBuffers_filling (codecs : Codecs) (zlib lz4 : Bytes → Decoding) :
    FixedBuffers (codecs.filling zlib lz4) zlib lz4 where
  inflate_fits := by
    rintro input out n ⟨hs, rfl⟩ hfit
    exact (if_pos hs).trans (if_pos hfit)
  inflate_ends := by
    intro input out n h
    change (if _ then if _ then _ else _ else _) = _ at h
    split at h
    · rename_i hs
      split at h <;> cases h
      exact ⟨_, ⟨hs, rfl⟩, by assumption⟩
    · cases h
  lz4_fits := by
    rintro input out n ⟨hs, rfl⟩ hfit
    exact if_pos ⟨hs, hfit⟩
  lz4_ends := by
    intro input out n h
    change (if _ then _ else _) = _ at h
    split at h <;> cases h
    rename_i hfit
    exact ⟨_, ⟨hfit.1, rfl⟩, hfit.2⟩

theorem singleton_le (contents : Bytes) (h : contents.length ≤ isizeMax) :
    ∀ c ∈ [contents], c.length ≤ isizeMax := fun _ hc => List.mem_singleton.mp hc ▸ h

/-- A decoder that knows one block, and what it holds. -/
def knowing (block contents : Bytes) (h : contents.length ≤ isizeMax) (input : Bytes) : Decoding :=
  if input = block then ⟨[contents], true, singleton_le contents h⟩
  else ⟨[], false, Decoding.nil_le⟩

/-- One stored zlib block that holds the byte 0x61. -/
def zlibBlock : Bytes := [0x78, 0x01, 0x01, 0x01, 0x00, 0xFE, 0xFF, 0x61, 0x00, 0x62, 0x00, 0x62]

/-- The bytes 0x61, 0x62 and 0x63 as an `.lzma` stream with an end marker. -/
def lzmaBlock : Bytes :=
  [0x5D, 0x00, 0x00, 0x80, 0x00, 0xFF, 0xFF, 0xFF, 0xFF, 0xFF, 0xFF, 0xFF, 0xFF, 0x00, 0x30, 0x98,
    0x88, 0xA4, 0x4A, 0x8E, 0x9F, 0xFF, 0xF6, 0x63, 0x80, 0x00]

/-- The same bytes as a zstd frame of one raw block. -/
def zstdBlock : Bytes :=
  [0x28, 0xB5, 0x2F, 0xFD, 0x20, 0x03, 0x19, 0x00, 0x00, 0x61, 0x62, 0x63]

/-- An `.xz` stream of two blocks of one byte, each behind an x86 converter. -/
def xzBlocks : Bytes :=
  Xz.STREAM_MAGIC ++ ([0, 1] ++ (u32Bytes (Xz.crc32 [0, 1]) ++
    (Xz.rawBlock.encode Xz.rawCodecs ++ (Xz.rawBlock.encode Xz.rawCodecs ++
      (Xz.indexBytes Xz.rawCodecs [Xz.rawBlock, Xz.rawBlock] ++
        Xz.footerBytes Xz.rawCodecs 2 [0, 1])))))

def sampleZlib : Bytes → Decoding := knowing zlibBlock [0x61] (by decide)

def sampleLz4 : Bytes → Decoding := knowing [0x10, 0x61] [0x61] (by decide)

/-- Codecs that know these blocks. -/
def sampleCodecs : Codecs :=
  { Xz.rawCodecs with
    lzma := knowing lzmaBlock [0x61, 0x62, 0x63] (by decide)
    zstd := fun input => some (knowing zstdBlock [0x61, 0x62, 0x63] (by decide) input) }.filling
    sampleZlib sampleLz4

theorem fixedBuffers_sample : FixedBuffers sampleCodecs sampleZlib sampleLz4 :=
  fixedBuffers_filling _ _ _

theorem xzBlocks_stored :
    Xz.Stored sampleCodecs xzBlocks 0x01 [Xz.rawBlock, Xz.rawBlock] := by
  have hsound : ∀ rest, Xz.rawBlock.Sound sampleCodecs 0x01 rest := Xz.rawBlock_sound rfl rfl
  refine ⟨by decide, _, _, rfl, .cons (hsound _) (.cons (hsound _) (.nil _)), ?_, 2, 0,
    by decide +kernel, by rw [Nat.mul_zero, List.replicate_zero, List.append_nil]; rfl⟩
  intro b hb
  obtain rfl : b = Xz.rawBlock := by simpa using hb
  exact ⟨by decide +kernel, by decide⟩

/-- Each block is decompressed with room for all it holds, and refused with a byte less, when the
sinks hold no more than that all the same. -/
theorem decompress_complete_sample :
    (decompress sampleCodecs .gzip zlibBlock 1 = .ok [0x61] ∧
      ∃ e, decompress sampleCodecs .gzip zlibBlock 0 = fails e) ∧
    (decompress sampleCodecs .lzma lzmaBlock 3 = .ok [0x61, 0x62, 0x63] ∧
      decompress sampleCodecs .lzma lzmaBlock 8192 = .ok [0x61, 0x62, 0x63] ∧
      (∃ e, decompress sampleCodecs .lzma lzmaBlock 2 = fails e) ∧
      ∀ held ∈ (decompressM sampleCodecs .lzma lzmaBlock 2).readings, held ≤ 3) ∧
    (decompress sampleCodecs .zstd zstdBlock 3 = .ok [0x61, 0x62, 0x63] ∧
      (∃ e, decompress sampleCodecs .zstd zstdBlock 1 = fails e) ∧
      ∀ held ∈ (decompressM sampleCodecs .zstd zstdBlock 1).readings, held ≤ 2) ∧
    decompress sampleCodecs .xz xzBlocks 2 = .ok [0x61, 0x61] ∧
      (∃ e, decompress sampleCodecs .xz xzBlocks 1 = fails e) ∧
      ∀ held ∈ (decompressM sampleCodecs .xz xzBlocks 1).readings, held ≤ 2 := by
  have hcomplete := fun comp input maxOut hcomp hin hmax => @decompress_complete sampleCodecs
    sampleZlib sampleLz4 comp input maxOut fixedBuffers_sample hcomp hin hmax
  refine ⟨?_, ?_, ?_, ?_⟩
  · have hwhole : Whole sampleCodecs sampleZlib sampleLz4 .gzip zlibBlock [0x61] :=
      ⟨by decide, by decide⟩
    obtain ⟨hok, -⟩ := hcomplete .gzip zlibBlock 1 (by decide) (by decide) (by decide)
    obtain ⟨-, hlong, -⟩ := hcomplete .gzip zlibBlock 0 (by decide) (by decide) (by decide)
    exact ⟨(hok _).mpr ⟨hwhole, by decide⟩, hlong _ hwhole (by decide)⟩
  · have hwhole : Whole sampleCodecs sampleZlib sampleLz4 .lzma lzmaBlock [0x61, 0x62, 0x63] :=
      ⟨by decide, by decide⟩
    obtain ⟨hok, -, -, hlarger, -⟩ :=
      hcomplete .lzma lzmaBlock 3 (by decide) (by decide) (by decide)
    obtain ⟨-, hlong, -, -, -, hheld, -⟩ :=
      hcomplete .lzma lzmaBlock 2 (by decide) (by decide) (by decide)
    have hthree := (hok _).mpr ⟨hwhole, by decide⟩
    exact ⟨hthree, hlarger _ _ hthree (by decide) (by decide), hlong _ hwhole (by decide), hheld⟩
  · have hwhole : Whole sampleCodecs sampleZlib sampleLz4 .zstd zstdBlock [0x61, 0x62, 0x63] :=
      ⟨_, rfl, by decide, by decide⟩
    obtain ⟨hok, -⟩ := hcomplete .zstd zstdBlock 3 (by decide) (by decide) (by decide)
    obtain ⟨-, hlong, -, -, -, hheld, -⟩ :=
      hcomplete .zstd zstdBlock 1 (by decide) (by decide) (by decide)
    exact ⟨(hok _).mpr ⟨hwhole, by decide⟩, hlong _ hwhole (by decide), hheld⟩
  · have hwhole : Whole sampleCodecs sampleZlib sampleLz4 .xz xzBlocks [0x61, 0x61] :=
      .inr ⟨by decide +kernel, 0x01, _, xzBlocks_stored, rfl⟩
    obtain ⟨hok, -⟩ := hcomplete .xz xzBlocks 2 (by decide) (by decide +kernel) (by decide)
    obtain ⟨-, hlong, -, -, -, hheld, -⟩ :=
      hcomplete .xz xzBlocks 1 (by decide) (by decide +kernel) (by decide)
    exact ⟨(hok _).mpr ⟨hwhole, by decide⟩, hlong _ hwhole (by decide), hheld⟩

end Squashfs
