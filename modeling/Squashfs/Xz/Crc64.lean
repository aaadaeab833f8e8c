import Squashfs.Foundation.Crc
import Squashfs.Xz.Reserved

/-!
# CRC-64/XZ

About `crc64` (`src/xz.rs:365-379`) as a code: its register is the remainder of the message by the
ECMA-182 polynomial (`crc64_register`), so a burst of up to 64 bits changes it. A block goes up to
its check by `readConverted`, and the check is compared next (`readBlock_eq`).

**`crc64_exact`**: the remainder is what `crc64` computes, and nothing else is; bursts of up to 64
bits are seen; and a stream with one in the converted bytes of a block under a CRC64 check is
refused for it.
-/

namespace Squashfs.Xz

open Foundation
open Polynomial

/-! ## The code -/

/-- The exponents of the ECMA-182 polynomial. -/
def ecma182Exponents : Finset Nat :=
  {64, 62, 57, 55, 54, 53, 52, 47, 46, 45, 40, 39, 38, 37, 35, 33, 32, 31, 29, 27, 24, 23, 22, 21,
    19, 17, 13, 12, 10, 9, 7, 4, 1, 0}

noncomputable def ECMA_182 : (ZMod 2)[X] := ∑ e ∈ ecma182Exponents, X ^ e

/-- The polynomial of the reflected `POLY`. -/
theorem generator_poly : generator 64 POLY.toNat = ECMA_182 := by
  have hbits : ∀ d < 64, POLY.toNat.testBit (64 - 1 - d) = decide (d ∈ ecma182Exponents) := by
    decide +kernel
  have htop : ∀ e ∈ ecma182Exponents, e < 65 := by decide +kernel
  ext d
  rw [generator, coeff_add, coeff_X_pow, register, coeff_bitPoly, ECMA_182, finsetSum_coeff]
  simp only [coeff_X_pow, Finset.sum_ite_eq]
  rcases Nat.lt_trichotomy d 64 with h | h | h
  · rw [if_neg (by omega), if_pos h, zero_add, hbits d h]
    by_cases hd : d ∈ ecma182Exponents
    · rw [decide_eq_true hd, if_pos hd]
      rfl
    · rw [decide_eq_false hd, if_neg hd]
      rfl
  · rw [if_pos h, if_neg (by omega), add_zero, h]
    rfl
  · rw [if_neg (by omega), if_neg (by omega), if_neg fun hd => absurd (htop d hd) (by omega),
      add_zero]

theorem crc64Bit_toNat (crc : UInt64) : (crc64Bit crc).toNat = crcBit POLY.toNat crc.toNat := by
  have hshift : (crc >>> 1).toNat = crc.toNat >>> 1 := UInt64.toNat_shiftRight crc 1
  have hlow : crc &&& 1 ≠ 0 ↔ crc.toNat.testBit 0 = true := by
    rw [Ne, ← UInt64.toNat_inj, UInt64.toNat_and, Nat.testBit_zero, decide_eq_true_eq]
    show ¬ (crc.toNat &&& 1 = 0) ↔ _
    rw [Nat.and_one_is_mod]
    omega
  unfold crc64Bit crcBit
  by_cases h : crc &&& 1 ≠ 0
  · rw [if_pos h, if_pos (hlow.mp h), UInt64.toNat_xor, hshift]
  · rw [if_neg h, if_neg (mt hlow.mpr h), hshift]

theorem crc64Byte_toNat (crc : UInt64) (b : UInt8) :
    (crc64Byte crc b).toNat = crcByte POLY.toNat crc.toNat b := by
  have hiter : ∀ n (r : UInt64), (Nat.iterate crc64Bit n r).toNat =
      (crcBit POLY.toNat)^[n] r.toNat := by
    intro n
    induction n with
    | zero => exact fun r => rfl
    | succ n ih =>
      intro r
      rw [Function.iterate_succ_apply, Function.iterate_succ_apply, ih, crc64Bit_toNat]
  rw [crc64Byte, hiter, UInt64.toNat_xor, UInt8.toNat_toUInt64]
  rfl

theorem crc64_register_toNat (data : Bytes) :
    (data.foldl crc64Byte (~~~0)).toNat = crcBytes POLY.toNat (2 ^ 64 - 1) data := by
  have hfold : ∀ r : UInt64, (data.foldl crc64Byte r).toNat =
      crcBytes POLY.toNat r.toNat data := by
    induction data with
    | nil => exact fun r => rfl
    | cons b data ih =>
      intro r
      rw [List.foldl_cons, ih, crc64Byte_toNat]
      rfl
  exact hfold _

/-- The polynomial of a register of ones. -/
noncomputable def allOnes : (ZMod 2)[X] := ∑ i ∈ Finset.range 64, X ^ i

theorem register_ones : register 64 (2 ^ 64 - 1) = allOnes := by
  ext d
  rw [register, coeff_bitPoly, allOnes, finsetSum_coeff]
  simp only [coeff_X_pow, Finset.sum_ite_eq, Finset.mem_range]
  split
  · rw [Nat.testBit_two_pow_sub_one, decide_eq_true (by omega)]
    rfl
  · rfl

/-- A complement adds ones. -/
theorem register_not (crc : UInt64) :
    register 64 (~~~crc).toNat = register 64 crc.toNat + allOnes := by
  have hnot : (~~~crc).toNat = crc.toNat ^^^ (2 ^ 64 - 1) := by
    have hlt := crc.toNat_lt
    refine Nat.eq_of_testBit_eq fun i => ?_
    rw [UInt64.toNat_not, show UInt64.size - 1 - crc.toNat = 2 ^ 64 - (crc.toNat + 1) by
      unfold UInt64.size; omega, Nat.testBit_two_pow_sub_succ hlt, Nat.testBit_xor,
      Nat.testBit_two_pow_sub_one]
    by_cases hi : i < 64
    · rw [decide_eq_true hi, Bool.true_and, Bool.xor_true]
    · have hpow : 2 ^ 64 ≤ 2 ^ i := Nat.pow_le_pow_right (by decide) (by omega)
      rw [decide_eq_false hi, Nat.testBit_lt_two_pow (by omega)]
      rfl
  rw [hnot, register_xor, register_ones]

/-- **The remainder**: the message above the check's place, with the ones the register began with
over its front, by ECMA-182; complemented. -/
theorem crc64_register (data : Bytes) : register 64 (crc64 data).toNat =
    (X ^ (8 * data.length) * allOnes + X ^ 64 * message data) %ₘ ECMA_182 + allOnes := by
  have hpoly : POLY.toNat < 2 ^ 64 := POLY.toNat_lt
  rw [crc64, register_not, crc64_register_toNat,
    register_crcBytes (by decide) hpoly (by decide), generator_poly, register_ones]

theorem crc64_burst {data data' : Bytes} (h : Burst 64 data data') : crc64 data ≠ crc64 data' := by
  have hpoly : POLY.toNat < 2 ^ 64 := POLY.toNat_lt
  have hone : (generator 64 POLY.toNat).coeff 0 = 1 := by
    rw [generator, coeff_add, coeff_X_pow, if_neg (by decide), register, coeff_bitPoly]
    rfl
  intro heq
  have hsame : data.foldl crc64Byte (~~~0) = data'.foldl crc64Byte (~~~0) := by
    have hnot := congrArg (~~~ ·) heq
    simpa [crc64] using hnot
  refine @burst_detected 64 POLY.toNat (by decide) hpoly hone (2 ^ 64 - 1) (by decide) _ _ h ?_
  rw [← crc64_register_toNat, ← crc64_register_toNat, hsame]

/-! ## A block under the check -/

/-- A block up to its check: what it holds once converted, unless the converter is left out; the
check stored behind it; and where the stream goes on. -/
def readConverted (codecs : Codecs) (stream : Bytes) (maxOut : Nat) (runFilter : Bool)
    (checkLen : Nat) (st : Progress) (sizeByte : UInt8) :
    Res (Option Bytes × Bytes × Progress) := do
  let h ← readHeader codecs stream st.pos sizeByte
  let dataStart ← add64 st.pos h.len
  let payload ← blockPayload stream dataStart h.compressedSize
  let (block, consumed) ←
    decodeLzma2 codecs payload (saturatingAdd (maxOut - st.out.length) 1)
  if h.compressedSize.any (·.toNat ≠ consumed) then
    bad "xz: compressed size disagrees with the payload"
  else if h.uncompressedSize.any (·.toNat ≠ block.length) then
    bad "xz: uncompressed size disagrees with the payload"
  else if maxOut < (← add64 st.out.length block.length) then
    bad "decompressed block exceeds max size"
  else
    let stop ← blockPadding stream st.pos (← add64 dataStart consumed)
    let next ← add64 stop checkLen
    let storedCheck ← orBad "xz: block check runs off the stream" (getSlice stream stop next)
    let unpadded ← add64 (← add64 h.len consumed) checkLen
    let records := st.records ++ [(UInt64.ofNat unpadded, UInt64.ofNat block.length)]
    match h.bcj with
    | some (kind, start) =>
      if ¬ runFilter then return (none, storedCheck, ⟨st.out ++ block, records, next⟩)
      else
        let converted ← decode kind start block
        return (some converted, storedCheck, ⟨st.out ++ converted, records, next⟩)
    | none => return (some block, storedCheck, ⟨st.out ++ block, records, next⟩)

/-- A block is read up to its check, which is compared next. -/
theorem readBlock_eq (codecs : Codecs) (stream : Bytes) (maxOut : Nat) (runFilter : Bool)
    (check : UInt8) (checkLen : Nat) (st : Progress) (sizeByte : UInt8) :
    readBlock codecs stream maxOut runFilter check checkLen st sizeByte = do
      let (contents, storedCheck, st') ←
        readConverted codecs stream maxOut runFilter checkLen st sizeByte
      if let some contents := contents then verifyCheck codecs check contents storedCheck
      return st' := by
  rw [readBlock_unmetered]
  unfold readConverted
  rw [bind_assoc]
  refine bind_congr fun h => ?_
  rw [bind_assoc]
  refine bind_congr fun dataStart => ?_
  rw [bind_assoc]
  refine bind_congr fun payload => ?_
  rw [bind_assoc]
  refine bind_congr fun ⟨block, consumed⟩ => ?_
  dsimp only
  unfold closeBlock
  by_cases hcompressed : h.compressedSize.any (·.toNat ≠ consumed) = true
  · rw [if_pos hcompressed, if_pos hcompressed]
    rfl
  rw [if_neg hcompressed, if_neg hcompressed]
  by_cases huncompressed : h.uncompressedSize.any (·.toNat ≠ block.length) = true
  · rw [if_pos huncompressed, if_pos huncompressed]
    rfl
  rw [if_neg huncompressed, if_neg huncompressed, bind_assoc]
  refine bind_congr fun size => ?_
  by_cases hfit : maxOut < size
  · rw [if_pos hfit, if_pos hfit]
    rfl
  rw [if_neg hfit, if_neg hfit, bind_assoc]
  refine bind_congr fun dataEnd => ?_
  rw [bind_assoc]
  refine bind_congr fun stop => ?_
  rw [bind_assoc]
  refine bind_congr fun next => ?_
  rw [bind_assoc]
  refine bind_congr fun storedCheck => ?_
  rw [bind_assoc]
  refine bind_congr fun unpadded => ?_
  rw [bind_assoc]
  refine bind_congr fun unpadded => ?_
  cases h.bcj with
  | none => rfl
  | some filter =>
    dsimp only
    by_cases hrun : ¬ runFilter = true
    · rw [if_pos hrun, if_pos hrun]
      rfl
    · rw [if_neg hrun, if_neg hrun, bind_assoc]
      rfl

/-- The reading of a stream comes to a block with `st`, after `k` blocks. -/
inductive Reaches (codecs : Codecs) (stream : Bytes) (maxOut : Nat) (runFilter : Bool)
    (check : UInt8) (checkLen : Nat) : (k : Nat) → Progress → Prop
  | start : Reaches codecs stream maxOut runFilter check checkLen 0 ⟨[], [], 12⟩
  | block {k : Nat} {st st' : Progress} {sizeByte : UInt8}
    (h : Reaches codecs stream maxOut runFilter check checkLen k st)
    (hbyte : stream[st.pos]? = some sizeByte) (hsize : sizeByte ≠ 0)
    (hread : readBlock codecs stream maxOut runFilter check checkLen st sizeByte = .ok st') :
    Reaches codecs stream maxOut runFilter check checkLen (k + 1) st'

section Reaches

variable {codecs : Codecs} {stream : Bytes} {maxOut : Nat} {runFilter : Bool}
  {check : UInt8} {checkLen k : Nat} {st : Progress}

/-- Every block moves the position on. -/
theorem Reaches.inv (hw : stream.length ≤ isizeMax) (hmax : maxOut < isizeMax)
    (hcheck : checkLen ≤ 32) (hlen : 12 ≤ stream.length)
    (h : Reaches codecs stream maxOut runFilter check checkLen k st) :
    st.Inv stream maxOut ∧ 12 + k ≤ st.pos := by
  induction h with
  | start => exact ⟨⟨hlen, Nat.zero_le _⟩, Nat.le_refl _⟩
  | block _ _ hsize hread ih =>
    obtain ⟨hinv, hpos⟩ := ih
    obtain ⟨hinv', hpos'⟩ := (safe_readBlock hw hmax hcheck hinv hsize).of_eq hread
    exact ⟨hinv', by omega⟩

/-- What reading the stream gives is what reading on from a block it comes to gives. -/
theorem Reaches.readBlocks (hw : stream.length ≤ isizeMax) (hmax : maxOut < isizeMax)
    (hcheck : checkLen ≤ 32) (hlen : 12 ≤ stream.length) {flags : Bytes}
    (h : Reaches codecs stream maxOut runFilter check checkLen k st) :
    readBlocks codecs stream maxOut runFilter flags check checkLen stream.length ⟨[], [], 12⟩ =
      Xz.readBlocks codecs stream maxOut runFilter flags check checkLen (stream.length - k) st := by
  induction h with
  | start => rfl
  | @block k st st' sizeByte h hbyte hsize hread ih =>
    obtain ⟨hinv, hpos⟩ := h.inv hw hmax hcheck hlen
    have hinside := hinv.inside
    have hturn : stream.length - k = stream.length - (k + 1) + 1 := by omega
    rw [ih, hturn, readBlocks_unmetered, hbyte]
    show (if sizeByte = 0 then _ else _) = _
    rw [if_neg hsize, hread]
    rfl

end Reaches

/-- What a header that names CRC64 says. -/
theorem readStreamHeader_crc64 {codecs : Codecs} {stream flags : Bytes} {checkLen : Nat}
    (h : readStreamHeader codecs stream = .ok (flags, 0x04, checkLen)) :
    12 ≤ stream.length ∧ checkLen = 8 := by
  unfold readStreamHeader startsWithMagic at h
  by_cases hshort : stream.length < 12
  · rw [if_pos hshort] at h
    cases h
  refine ⟨Nat.not_lt.mp hshort, ?_⟩
  obtain ⟨magic, -, h⟩ := bind_eq_ok.mp h
  split at h
  · cases h
  obtain ⟨flags', -, h⟩ := bind_eq_ok.mp h
  obtain ⟨stored, -, h⟩ := bind_eq_ok.mp h
  obtain ⟨first, -, h⟩ := bind_eq_ok.mp h
  split at h
  · cases h
  obtain ⟨second, -, h⟩ := bind_eq_ok.mp h
  obtain ⟨n, hn, h⟩ := bind_eq_ok.mp h
  obtain ⟨-, hcheck, rfl⟩ : flags' = flags ∧ second &&& 0x0F = 0x04 ∧ n = checkLen := by
    simpa [pure_eq_ok] using h
  rw [hcheck] at hn
  cases hn
  rfl

/-- **CRC-64/XZ.** `crc64` is the remainder of the message and of a first register of ones by the
ECMA-182 polynomial, complemented, and nothing else is. Strings that differ, and only in 64
consecutive bits as sent, have different checks. A stream that comes to a block under a CRC64 check
whose stored check is that of bytes which those it holds are a burst away from is refused for it. -/
theorem crc64_exact :
    (∀ (data : Bytes) (crc : UInt64), crc = crc64 data ↔ register 64 crc.toNat =
      (X ^ (8 * data.length) * allOnes + X ^ 64 * message data) %ₘ ECMA_182 + allOnes) ∧
    (∀ data data' : Bytes, Burst 64 data data' → crc64 data ≠ crc64 data') ∧
    ∀ (codecs : Codecs) (stream : Bytes) (maxOut : Nat) (runFilter : Bool),
      stream.length ≤ isizeMax → maxOut < isizeMax →
      ∀ flags checkLen, readStreamHeader codecs stream = .ok (flags, 0x04, checkLen) →
      ∀ k st sizeByte, Reaches codecs stream maxOut runFilter 0x04 checkLen k st →
      stream[st.pos]? = some sizeByte → sizeByte ≠ 0 →
      ∀ original damaged stored st',
      readConverted codecs stream maxOut runFilter checkLen st sizeByte =
        .ok (some damaged, stored, st') →
      stored = u64Bytes (crc64 original) → Burst 64 original damaged →
      decompressWith codecs stream maxOut runFilter = bad "xz: block CRC64 mismatch" := by
  refine ⟨fun data crc => ⟨?_, fun h => ?_⟩, fun _ _ h => crc64_burst h, ?_⟩
  · rintro rfl
    exact crc64_register data
  · exact UInt64.toNat_inj.mp (register_inj crc.toNat_lt (crc64 data).toNat_lt
      (h.trans (crc64_register data).symm))
  · intro codecs stream maxOut runFilter hw hmax flags checkLen hheader k st sizeByte hreach hbyte
      hsize original damaged stored st' hread hstored hburst
    obtain ⟨hlen, rfl⟩ := readStreamHeader_crc64 hheader
    obtain ⟨hinv, hpos⟩ := hreach.inv hw hmax (by decide) hlen
    have hinside := hinv.inside
    have hne : u64Bytes (crc64 damaged) ≠ stored := by
      rw [hstored]
      intro heq
      have hsame := congrArg u64le heq
      rw [u64le_u64Bytes, u64le_u64Bytes] at hsame
      exact crc64_burst hburst hsame.symm
    have hblock : readBlock codecs stream maxOut runFilter 0x04 8 st sizeByte =
        bad "xz: block CRC64 mismatch" := by
      rw [readBlock_eq, hread]
      show (verifyCheck codecs 0x04 damaged stored >>= fun _ => _) = _
      rw [verifyCheck, if_neg (by simp), if_pos ⟨rfl, hne⟩]
      rfl
    have hturn : stream.length - k = stream.length - (k + 1) + 1 := by omega
    rw [decompressWith_unmetered, hheader, ok_bind]
    show readBlocks _ _ _ _ _ _ _ _ _ = _
    rw [hreach.readBlocks hw hmax (by decide) hlen, hturn, readBlocks_unmetered, hbyte]
    show (if sizeByte = 0 then _ else _) = _
    rw [if_neg hsize, hblock]
    rfl

/-- A stream whose one block holds a byte with a bit flipped after its check was taken. -/
def flippedStream : Bytes :=
  STREAM_MAGIC ++ ([0, 4] ++ (u32Bytes (crc32 [0, 4]) ++ (rawBlock.header.encode rawCodecs ++
    ([1, 0, 0, 0x60, 0] ++ (padTo4 5 ++ u64Bytes (crc64 [0x61]))))))

/-- One bit flipped. -/
theorem flipped_burst : Burst 64 [0x61] [0x60] where
  length := rfl
  differ := by decide
  confined := by
    refine ⟨0, fun k hk => ⟨Nat.zero_le k, ?_⟩⟩
    by_contra hlarge
    have hpast : k / 8 = k / 8 - 1 + 1 := by omega
    rw [transmitted, transmitted, hpast] at hk
    exact hk rfl

theorem crc64_exact_sample :
    crc64 [0x61] ≠ crc64 [0x60] ∧
      decompressWith rawCodecs flippedStream 8192 true = bad "xz: block CRC64 mismatch" := by
  obtain ⟨-, hdiffer, hrefused⟩ := crc64_exact
  refine ⟨hdiffer _ _ flipped_burst, ?_⟩
  refine hrefused rawCodecs flippedStream 8192 true (by decide +kernel) (by decide) [0, 4] 8
    (by decide +kernel) 0 _ 2 .start (by decide +kernel) (by decide) [0x61] [0x60] _
    ⟨[0x60], [(25, 1)], 40⟩ (by decide +kernel) rfl flipped_burst

end Squashfs.Xz
