import Squashfs.Xz.Index

/-!
# What the .xz decoder accepts

About `decompress_with` (`src/xz.rs:97-259`). `Stored` is the format of a whole stream: header,
blocks, index, footer, padding, each spelled from the fields it carries, and each block's fields
agreeing with what LZMA2 and the converter make of its payload.

**`decompress_eq_ok`**: a stream decodes exactly when it is a stored one whose contents fit the
output. A step reads one block exactly when one is there (`readBlock_eq_ok`), and the run follows by
induction on the turns left (`readBlocks_eq_ok`). `Stored.unique`: a stream is stored in one way, as
far as its headers and its contents go.
-/

namespace Squashfs.Xz

open Foundation

variable {codecs : Codecs}

/-! ## The format of a stream -/

/-- The check of a block: none, or the CRC32 or the CRC64 of its contents. -/
def checkBytes (codecs : Codecs) (check : UInt8) (contents : Bytes) : Option Bytes :=
  if check = 0x00 then some []
  else if check = 0x01 then some (u32Bytes (codecs.crc32 contents))
  else if check = 0x04 then some (u64Bytes (crc64 contents))
  else none

/-- A block: what is stored, what LZMA2 makes of it, and what it holds once converted. -/
structure Block where
  header : Header
  coded : Bytes
  plain : Bytes
  contents : Bytes
  check : Bytes
  deriving Repr, DecidableEq

namespace Block

/-- A block's bytes after its header. -/
def payload (b : Block) : Bytes := b.coded ++ (padTo4 b.coded.length ++ b.check)

def encode (codecs : Codecs) (b : Block) : Bytes := b.header.encode codecs ++ b.payload

/-- The bytes LZMA2 is handed: all that follow the header, unless it gives their number. -/
def input (b : Block) (rest : Bytes) : Bytes :=
  match b.header.compressedSize with
  | none => b.payload ++ rest
  | some _ => b.coded

/-- A block, followed by `rest`, whose fields agree with each other. -/
structure Sound (codecs : Codecs) (check : UInt8) (b : Block) (rest : Bytes) : Prop where
  header : b.header.Sound
  decodes : (codecs.lzma2 (b.input rest)).1.succeeds = true
  plain : b.plain = (codecs.lzma2 (b.input rest)).1.chunks.flatten
  coded : b.coded.length = (codecs.lzma2 (b.input rest)).2
  compressed : ∀ n ∈ b.header.compressedSize, n = b.coded.length
  uncompressed : ∀ n ∈ b.header.uncompressedSize, n = b.plain.length
  converts : match b.header.converter with
    | none => b.contents = b.plain
    | some c => decode c.kind c.offset b.plain = .ok b.contents
  checked : checkBytes codecs check b.contents = some b.check

/-- The sizes the index repeats. -/
def unpaddedSize (b : Block) : Nat := b.header.len + b.coded.length + b.check.length

def recordBytes (b : Block) : Bytes := numberBytes b.unpaddedSize ++ numberBytes b.plain.length

end Block

/-- Blocks one after another, up to `tail`. -/
inductive Blocks (codecs : Codecs) (check : UInt8) : Bytes → List Block → Bytes → Prop
  | nil (tail : Bytes) : Blocks codecs check tail [] tail
  | cons {b : Block} {bs : List Block} {rest tail : Bytes} (sound : b.Sound codecs check rest)
      (more : Blocks codecs check rest bs tail) :
      Blocks codecs check (b.encode codecs ++ rest) (b :: bs) tail

/-- The index without its padding and checksum. -/
def indexFields (bs : List Block) : Bytes :=
  0 :: (numberBytes bs.length ++ bs.flatMap Block.recordBytes)

def indexBody (bs : List Block) : Bytes := indexFields bs ++ padTo4 (indexFields bs).length

def indexBytes (codecs : Codecs) (bs : List Block) : Bytes :=
  indexBody bs ++ u32Bytes (codecs.crc32 (indexBody bs))

/-- The index of blocks `bs`, the footer, and zero bytes in fours. -/
structure Trailer (codecs : Codecs) (flags : Bytes) (bs : List Block) (tail : Bytes) : Prop where
  small : ∀ b ∈ bs, b.unpaddedSize < 2 ^ 63 ∧ b.plain.length < 2 ^ 63
  spelled : ∃ backward k, (backward.toNat + 1) * 4 = (indexBytes codecs bs).length ∧
    tail = indexBytes codecs bs ++ (footerBytes codecs backward flags ++ List.replicate (4 * k) 0)

/-- A stream of blocks `bs` whose second flag byte is `second`. -/
structure Stored (codecs : Codecs) (stream : Bytes) (second : UInt8) (bs : List Block) :
    Prop where
  known : second &&& 0x0F = 0x00 ∨ second &&& 0x0F = 0x01 ∨ second &&& 0x0F = 0x04 ∨
    second &&& 0x0F = 0x0A
  spelled : ∃ body tail, stream = STREAM_MAGIC ++ ([0, second] ++
      (u32Bytes (codecs.crc32 [0, second]) ++ body)) ∧
    Blocks codecs (second &&& 0x0F) body bs tail ∧ Trailer codecs [0, second] bs tail

/-! ## Blocks -/

theorem checkLength_eq_ok {check : UInt8} {n : Nat} (h : checkLength check = .ok n) :
    check = 0x00 ∧ n = 0 ∨ check = 0x01 ∧ n = 4 ∨ check = 0x04 ∧ n = 8 ∨ check = 0x0A ∧ n = 32 := by
  unfold checkLength at h
  repeat' split at h
  all_goals first
    | cases h; simp [*]
    | cases h

theorem verifyCheck_eq_ok {check : UInt8} {n : Nat} (hn : checkLength check = .ok n)
    {contents stored : Bytes} (hlen : stored.length = n) :
    verifyCheck codecs check contents stored = .ok () ↔
      checkBytes codecs check contents = some stored := by
  unfold verifyCheck checkBytes
  rcases checkLength_eq_ok hn with ⟨rfl, rfl⟩ | ⟨rfl, -⟩ | ⟨rfl, -⟩ | ⟨rfl, -⟩
  · rw [List.length_eq_zero_iff] at hlen
    subst hlen
    simp [pure_eq_ok]
  · by_cases hcrc : u32Bytes (codecs.crc32 contents) = stored <;> simp [hcrc, pure_eq_ok]
  · by_cases hcrc : u64Bytes (crc64 contents) = stored <;> simp [hcrc, pure_eq_ok]
  · simp

theorem checkBytes_length {check : UInt8} {n : Nat} (hn : checkLength check = .ok n)
    {contents stored : Bytes} (h : checkBytes codecs check contents = some stored) :
    stored.length = n := by
  unfold checkBytes at h
  rcases checkLength_eq_ok hn with ⟨rfl, rfl⟩ | ⟨rfl, rfl⟩ | ⟨rfl, rfl⟩ | ⟨rfl, rfl⟩
  · cases h
    rfl
  · cases h
    exact u32Bytes_length _
  · cases h
    exact u64Bytes_length _
  · cases h

/-- LZMA2 fills the sink exactly when it succeeds with an output that fits. -/
theorem decodeLzma2_eq_ok {payload plain : Bytes} {limit consumed : Nat} (hl : limit < wordSize) :
    decodeLzma2 codecs payload limit = .ok (plain, consumed) ↔
      (codecs.lzma2 payload).1.succeeds = true ∧
        plain = (codecs.lzma2 payload).1.chunks.flatten ∧ plain.length ≤ limit ∧
        consumed = (codecs.lzma2 payload).2 := by
  rw [decodeLzma2_unmetered]
  constructor
  · intro h
    obtain ⟨sink, hinto, h⟩ := bind_eq_ok.mp h
    cases h
    obtain ⟨hs, rfl, hfit⟩ := Decoding.into_eq_ok (mapErr_eq_ok.mp hinto)
    exact ⟨hs, rfl, by simpa using hfit (Nat.zero_le _), rfl⟩
  · rintro ⟨hs, rfl, hfit, rfl⟩
    rw [Decoding.into_fits hs (by simpa using hfit) hl]
    rfl

theorem blockPayload_eq_ok {stream payload : Bytes} {start : Nat} {size : Option UInt64} :
    blockPayload stream start size = .ok payload ↔ start ≤ stream.length ∧
      match size with
      | none => payload = stream.drop start
      | some n => n.toNat ≤ (stream.drop start).length ∧
          payload = (stream.drop start).take n.toNat := by
  unfold blockPayload
  rw [bind_eq_ok]
  simp only [okOr_eq_ok, getFrom_eq_some]
  cases size with
  | none => simp [pure_eq_ok, eq_comm]
  | some n => simp [okOr_eq_ok, getSlice_eq_some]

theorem padTo4_add {n : Nat} (h : n % 4 = 0) (m : Nat) : padTo4 (n + m) = padTo4 m := by
  rw [padTo4, padTo4, show (n + m) % 4 = m % 4 by omega]

theorem Header.len_mod (h : Header) : h.len % 4 = 0 := Nat.mul_mod_left _ _

theorem Header.encode_length {h : Header} (hsound : h.Sound) : (h.encode codecs).length = h.len := by
  rw [Header.encode, List.length_append, u32Bytes_length, hsound.length]

theorem Block.encode_length {b : Block} (h : b.header.Sound) :
    (b.encode codecs).length = b.header.len + b.payload.length := by
  rw [Block.encode, List.length_append, Header.encode_length h]

/-- A size that is there agrees with the one found. -/
theorem sizes_agree {o : Option Nat} {m : Nat} (hsmall : ∀ n ∈ o, n < 2 ^ 63) :
    (¬ (o.map UInt64.ofNat).any (fun x => decide (x.toNat ≠ m)) = true) ↔ ∀ n ∈ o, n = m := by
  cases o with
  | none => simp
  | some n =>
    have hn : n < 2 ^ 63 := hsmall n rfl
    have htoNat : (UInt64.ofNat n).toNat = n :=
      UInt64.toNat_ofNat_of_lt' (Nat.lt_trans hn (by decide))
    simp [htoNat]

/-- The bytes LZMA2 is handed are those `blockPayload` cuts out. -/
theorem blockPayload_input {stream : Bytes} {b : Block} {start : Nat}
    (hin : start ≤ stream.length) (hs : Spells stream start b.payload)
    (hc : ∀ n ∈ b.header.compressedSize, n = b.coded.length)
    (hsmall : b.coded.length < wordSize) :
    blockPayload stream start b.header.toBlockHeader.compressedSize =
      .ok (b.input (stream.drop (start + b.payload.length))) := by
  rw [blockPayload_eq_ok]
  refine ⟨hin, ?_⟩
  have hbytes : stream.drop start = b.coded ++ (padTo4 b.coded.length ++ b.check ++
      stream.drop (start + b.payload.length)) := by
    rw [hs, Block.payload]
    simp only [List.append_assoc]
  unfold Header.toBlockHeader Block.input
  rcases hsize : b.header.compressedSize with _ | n
  · exact hs.symm
  · obtain rfl : n = b.coded.length := hc n hsize
    have htoNat : (UInt64.ofNat b.coded.length).toNat = b.coded.length :=
      UInt64.toNat_ofNat_of_lt' hsmall
    dsimp only [Option.map_some]
    rw [htoNat, hbytes, List.take_left, List.length_append]
    exact ⟨Nat.le_add_right _ _, rfl⟩

/-- What a block adds to the progress. -/
def Progress.after (st : Progress) (codecs : Codecs) (b : Block) : Progress :=
  ⟨st.out ++ b.contents,
    st.records ++ [(UInt64.ofNat b.unpaddedSize, UInt64.ofNat b.plain.length)],
    st.pos + (b.encode codecs).length⟩

/-- **A block is read exactly when it is there**, agrees with itself and fits the output. -/
theorem readBlock_eq_ok {stream : Bytes} (hw : stream.length ≤ isizeMax) {maxOut : Nat}
    (hmax : maxOut < wordSize) {check : UInt8} {checkLen : Nat}
    (hcheck : checkLength check = .ok checkLen) {st st' : Progress} {sizeByte : UInt8}
    (hst : st.Inv stream maxOut) (hbyte : stream[st.pos]? = some sizeByte) (hsize : sizeByte ≠ 0) :
    readBlock codecs stream maxOut true check checkLen st sizeByte = .ok st' ↔
      ∃ b : Block, Spells stream st.pos (b.encode codecs) ∧
        b.Sound codecs check (stream.drop (st.pos + (b.encode codecs).length)) ∧
        st.out.length + b.plain.length ≤ maxOut ∧ st' = st.after codecs b := by
  have hout := hst.fits
  have hlimit : saturatingAdd (maxOut - st.out.length) 1 < wordSize := saturatingAdd_lt _ _
  rw [readBlock_unmetered]
  unfold closeBlock
  constructor
  · intro h
    obtain ⟨r, hheader, h⟩ := bind_eq_ok.mp h
    obtain ⟨header, hsound, hs₁, rfl⟩ := (readHeader_eq_ok hw hbyte hsize).mp hheader
    have hlen := @Header.encode_length codecs _ hsound
    have hmod := header.len_mod
    have hin₁ := hs₁.le (List.ne_nil_of_length_pos (by have := hsound.length; omega))
    rw [hlen] at hin₁
    obtain ⟨dataStart, hstart, h⟩ := bind_eq_ok.mp h
    obtain rfl : dataStart = st.pos + header.len := (add64_eq_ok.mp hstart).2
    obtain ⟨payload, hpayload, h⟩ := bind_eq_ok.mp h
    obtain ⟨⟨plain, consumed⟩, hdecode, h⟩ := bind_eq_ok.mp h
    obtain ⟨hsucceeds, hplain, -, hconsumed⟩ := (decodeLzma2_eq_ok hlimit).mp hdecode
    dsimp only at h
    split at h
    · cases h
    rename_i hcompressed
    split at h
    · cases h
    rename_i huncompressed
    obtain ⟨total, htotal, h⟩ := bind_eq_ok.mp h
    obtain ⟨-, rfl⟩ := add64_eq_ok.mp htotal
    split at h
    · cases h
    rename_i hfit
    obtain ⟨codedEnd, hcoded, h⟩ := bind_eq_ok.mp h
    obtain ⟨-, rfl⟩ := add64_eq_ok.mp hcoded
    obtain ⟨stop, hpadding, h⟩ := bind_eq_ok.mp h
    obtain ⟨next, hnext, h⟩ := bind_eq_ok.mp h
    obtain ⟨-, rfl⟩ := add64_eq_ok.mp hnext
    obtain ⟨stored, hstored, h⟩ := bind_eq_ok.mp h
    obtain ⟨hle, hs₄, hstoredLen⟩ := getSlice_eq_some_spells.mp (okOr_eq_ok.mp hstored)
    obtain ⟨_, hused, h⟩ := bind_eq_ok.mp h
    obtain rfl := (add64_eq_ok.mp hused).2
    obtain ⟨unpadded, hunpadded, h⟩ := bind_eq_ok.mp h
    obtain rfl := (add64_eq_ok.mp hunpadded).2
    obtain ⟨contents, hconverts, hverify, rfl⟩ : ∃ contents,
        (match header.converter with
          | none => contents = plain
          | some c => decode c.kind c.offset plain = .ok contents) ∧
        verifyCheck codecs check contents stored = .ok () ∧
        st' = ⟨st.out ++ contents, st.records ++
          [(UInt64.ofNat (header.len + consumed + checkLen), UInt64.ofNat plain.length)],
          stop + checkLen⟩ := by
      dsimp only [Header.toBlockHeader] at h
      rcases hconv : header.converter with _ | c
      · rw [hconv] at h
        obtain ⟨_, hverify, hret⟩ := bind_eq_ok.mp h
        cases hret
        exact ⟨plain, rfl, hverify, rfl⟩
      · rw [hconv] at h
        dsimp only [Option.map_some] at h
        rw [if_neg (by decide)] at h
        obtain ⟨contents, hdecoded, h⟩ := bind_eq_ok.mp h
        obtain ⟨_, hverify, hret⟩ := bind_eq_ok.mp h
        cases hret
        exact ⟨contents, hdecoded, hverify, rfl⟩
    have hpayloadLen := codecs.lzma2_position_le payload
    rw [← hconsumed] at hpayloadLen
    have hfits : st.pos + header.len + consumed ≤ stream.length := by
      have := (@safe_blockPayload stream (st.pos + header.len) _).of_eq hpayload
      omega
    have hcodedLen := window_length hfits
    have hs₂ := spells_window hfits
    generalize (stream.drop (st.pos + header.len)).take consumed = coded at hcodedLen hs₂
    subst hcodedLen
    have hlt : stream.length < wordSize := by unfold isizeMax wordSize at *; omega
    obtain ⟨hs₃, rfl⟩ := (zeroPadding_eq_ok hlt (by omega) (by omega)).mp hpadding
    rw [show st.pos + header.len + coded.length - st.pos = header.len + coded.length by omega,
      padTo4_add hmod] at hs₃ hs₄ hstoredLen ⊢
    obtain rfl : stored.length = checkLen := by omega
    have hcompressed := (sizes_agree hsound.compressed).mp hcompressed
    have huncompressed := (sizes_agree hsound.uncompressed).mp huncompressed
    have hs := spells_append.mpr ⟨hs₂, spells_append.mpr ⟨hs₃, hs₄⟩⟩
    have hinput := @blockPayload_input stream ⟨header, coded, plain, contents, stored⟩ _
      hin₁ hs hcompressed (show coded.length < wordSize by omega)
    obtain rfl := Except.ok.inj (hpayload.symm.trans hinput)
    have hend := @Block.encode_length codecs ⟨header, coded, plain, contents, stored⟩ hsound
    rw [Nat.add_assoc, ← hend] at hsucceeds hplain hconsumed
    refine ⟨⟨header, coded, plain, contents, stored⟩, ?_,
      ⟨hsound, hsucceeds, hplain, hconsumed, hcompressed, huncompressed, hconverts,
        (verifyCheck_eq_ok hcheck rfl).mp hverify⟩, Nat.le_of_not_lt hfit, ?_⟩
    · exact spells_append.mpr ⟨hs₁, by rw [hlen]; exact hs⟩
    · rw [Progress.after, hend, Block.unpaddedSize, Block.payload, List.length_append,
        List.length_append]
      simp only [Nat.add_assoc]
  · rintro ⟨b, hs, hsound, hfit, rfl⟩
    have hlen := @Header.encode_length codecs _ hsound.header
    have hend := @Block.encode_length codecs _ hsound.header
    have hmod := b.header.len_mod
    have hbodyLen := hsound.header.length
    have hle := hs.le (List.ne_nil_of_length_pos (by omega))
    obtain ⟨hs₁, hs₂⟩ := spells_append.mp hs
    rw [hlen] at hs₂
    obtain ⟨hs₃, hs₄⟩ := spells_append.mp hs₂
    obtain ⟨hs₄, hs₅⟩ := spells_append.mp hs₄
    have hcheckLen := checkBytes_length hcheck hsound.checked
    rw [hend, Block.payload, List.length_append, List.length_append] at hle
    have hlt : stream.length < wordSize := by unfold isizeMax wordSize at *; omega
    refine bind_eq_ok.mpr ⟨_, (readHeader_eq_ok hw hbyte hsize).mpr ⟨_, hsound.header, hs₁, rfl⟩, ?_⟩
    dsimp only [Header.toBlockHeader]
    refine bind_eq_ok.mpr ⟨_, add64_ok (show st.pos + b.header.len < wordSize by omega), ?_⟩
    refine bind_eq_ok.mpr ⟨_, blockPayload_input (by omega) hs₂ hsound.compressed (by omega), ?_⟩
    have hdecodes := hsound.decodes
    have hplain := hsound.plain
    have hcoded := hsound.coded
    rw [hend, ← Nat.add_assoc] at hdecodes hplain hcoded
    refine bind_eq_ok.mpr ⟨_, (decodeLzma2_eq_ok hlimit).mpr
      ⟨hdecodes, hplain, ?_, hcoded⟩, ?_⟩
    · exact Nat.le_min.mpr ⟨by omega, Nat.le_sub_one_of_lt (by omega)⟩
    dsimp only
    refine (if_neg ((sizes_agree hsound.header.compressed).mpr hsound.compressed)).trans ?_
    refine (if_neg ((sizes_agree hsound.header.uncompressed).mpr hsound.uncompressed)).trans ?_
    rw [add64_ok (by omega), ok_bind, if_neg (by omega), add64_ok (by omega), ok_bind]
    have hpad : padTo4 (st.pos + b.header.len + b.coded.length - st.pos) = padTo4 b.coded.length := by
      rw [show st.pos + b.header.len + b.coded.length - st.pos = b.header.len + b.coded.length by
        omega, padTo4_add hmod]
    refine bind_eq_ok.mpr ⟨_, (zeroPadding_eq_ok hlt (by omega) (by omega)).mpr
      ⟨by rw [hpad]; exact hs₄, rfl⟩, ?_⟩
    rw [hpad]
    refine bind_eq_ok.mpr ⟨_, add64_ok (by omega), ?_⟩
    refine bind_eq_ok.mpr ⟨_, okOr_eq_ok.mpr
      (getSlice_eq_some_spells.mpr ⟨by omega, hs₅, by omega⟩), ?_⟩
    rw [add64_ok (by omega), ok_bind, add64_ok (by omega), ok_bind]
    have hverify := (verifyCheck_eq_ok hcheck hcheckLen).mpr hsound.checked
    have hconverts := hsound.converts
    have hafter : st.after codecs b = ⟨st.out ++ b.contents, st.records ++
        [(UInt64.ofNat (b.header.len + b.coded.length + checkLen), UInt64.ofNat b.plain.length)],
        st.pos + b.header.len + b.coded.length + (padTo4 b.coded.length).length + checkLen⟩ := by
      rw [Progress.after, hend, Block.unpaddedSize, hcheckLen, Block.payload, List.length_append,
        List.length_append, hcheckLen]
      simp only [Nat.add_assoc]
    rw [hafter]
    rcases hconv : b.header.converter with _ | c
    · rw [hconv] at hconverts
      dsimp only at hconverts
      rw [← hconverts]
      exact bind_eq_ok.mpr ⟨(), hverify, rfl⟩
    · rw [hconv] at hconverts
      exact bind_eq_ok.mpr ⟨_, hconverts, bind_eq_ok.mpr ⟨(), hverify, rfl⟩⟩

/-! ## The index and the footer -/

/-- The sizes of a block, as the decoder keeps them. -/
def Block.record (b : Block) : UInt64 × UInt64 :=
  (UInt64.ofNat b.unpaddedSize, UInt64.ofNat b.plain.length)

theorem Block.record_toNat {b : Block} (h : b.unpaddedSize < wordSize ∧ b.plain.length < wordSize) :
    b.record.1.toNat = b.unpaddedSize ∧ b.record.2.toNat = b.plain.length :=
  ⟨UInt64.toNat_ofNat_of_lt' h.1, UInt64.toNat_ofNat_of_lt' h.2⟩

theorem records_bytes {bs : List Block}
    (h : ∀ b ∈ bs, b.unpaddedSize < wordSize ∧ b.plain.length < wordSize) :
    (bs.map Block.record).flatMap pairBytes = bs.flatMap Block.recordBytes := by
  rw [List.flatMap_map]
  refine List.flatMap_congr fun b hb => ?_
  obtain ⟨h₁, h₂⟩ := Block.record_toNat (h b hb)
  rw [pairBytes, Block.recordBytes, h₁, h₂]

/-- **The index and the footer are accepted exactly when they are there**, for the blocks that
were read. -/
theorem checkIndexAndFooter_eq_ok {tail flags : Bytes} (hw : tail.length ≤ isizeMax)
    (hzero : tail[0]? = some 0) (hflags : flags.length = 2) {bs : List Block}
    (hcount : bs.length < 2 ^ 63)
    (hsmall : ∀ b ∈ bs, b.unpaddedSize < wordSize ∧ b.plain.length < wordSize) :
    checkIndexAndFooter codecs tail (bs.map Block.record) flags = .ok () ↔
      Trailer codecs flags bs tail := by
  have hsame : indexOf codecs (bs.map Block.record) = indexBytes codecs bs := by
    have hfields : recordFields (bs.map Block.record) = indexFields bs := by
      rw [recordFields, indexFields, List.length_map, records_bytes hsmall]
    rw [indexOf, indexBytes, paddedFields, indexBody, hfields]
  rw [checkIndexAndFooter_eq_ok_records hw hzero hflags (by rw [List.length_map]; exact hcount),
    hsame]
  have hrange : (∀ r ∈ bs.map Block.record, r.1.toNat < 2 ^ 63 ∧ r.2.toNat < 2 ^ 63) ↔
      ∀ b ∈ bs, b.unpaddedSize < 2 ^ 63 ∧ b.plain.length < 2 ^ 63 := by
    rw [List.forall_mem_map]
    refine forall₂_congr fun b hb => ?_
    obtain ⟨h₁, h₂⟩ := Block.record_toNat (hsmall b hb)
    rw [h₁, h₂]
  rw [hrange]
  constructor
  · rintro ⟨h, htail⟩
    exact ⟨h, htail⟩
  · rintro ⟨h, htail⟩
    exact ⟨h, htail⟩

/-! ## The stream -/

theorem Block.contents_length {check : UInt8} {b : Block} {rest : Bytes}
    (h : b.Sound codecs check rest) (hsmall : b.plain.length < wordSize) :
    b.contents.length = b.plain.length := by
  have hconverts := h.converts
  rcases hconv : b.header.converter with _ | c
  · rw [hconv] at hconverts
    exact congrArg List.length hconverts
  · rw [hconv] at hconverts
    exact (decode_keeps c.kind c.offset b.plain hsmall).safe.of_eq hconverts

/-- A block begins with its size byte. -/
theorem Block.encode_head (b : Block) (rest : Bytes) :
    (b.encode codecs ++ rest)[0]? = some b.header.sizeByte := rfl

theorem Trailer.head {flags tail : Bytes} {bs : List Block} (h : Trailer codecs flags bs tail) :
    tail[0]? = some 0 := by
  obtain ⟨backward, k, -, rfl⟩ := h.spelled
  rfl

/-- The blocks ahead, by the byte they begin with: none when it is zero. -/
theorem Blocks.cases_head {check : UInt8} {bytes tail : Bytes} {bs : List Block}
    (h : Blocks codecs check bytes bs tail) (hzero : tail[0]? = some 0) :
    bytes[0]? = some 0 ∧ bs = [] ∧ tail = bytes ∨
      ∃ b bs' rest, bytes[0]? = some b.header.sizeByte ∧ b.header.sizeByte ≠ 0 ∧
        bs = b :: bs' ∧ bytes = b.encode codecs ++ rest ∧ b.Sound codecs check rest ∧
        Blocks codecs check rest bs' tail := by
  cases h with
  | nil => exact .inl ⟨hzero, rfl, rfl⟩
  | cons sound more =>
    exact .inr ⟨_, _, _, Block.encode_head _ _, sound.header.size, rfl, rfl, sound, more⟩

/-- **The blocks ahead are read exactly when they are there**, with the index and the footer of
all the blocks after them, and fit the output. -/
theorem readBlocks_eq_ok {stream flags : Bytes} (hw : stream.length ≤ isizeMax)
    (hflags : flags.length = 2) {maxOut : Nat} (hmax : maxOut < wordSize) {check : UInt8}
    {checkLen : Nat} (hcheck : checkLength check = .ok checkLen) {turns : Nat} {st : Progress}
    {done : List Block} {out : Bytes} (hst : st.Inv stream maxOut)
    (hturns : stream.length < turns + st.pos) (hrecords : st.records = done.map Block.record)
    (hcount : done.length ≤ st.pos)
    (hsmall : ∀ b ∈ done, b.unpaddedSize < wordSize ∧ b.plain.length < wordSize) :
    readBlocks codecs stream maxOut true flags check checkLen turns st = .ok out ↔
      ∃ bs tail, Blocks codecs check (stream.drop st.pos) bs tail ∧
        Trailer codecs flags (done ++ bs) tail ∧ out = st.out ++ bs.flatMap Block.contents ∧
        out.length ≤ maxOut := by
  induction turns generalizing st done with
  | zero => exact absurd hst.inside (by omega)
  | succ turns ih =>
    rw [readBlocks_unmetered]
    have hhead : (stream.drop st.pos)[0]? = stream[st.pos]? := by
      rw [List.getElem?_drop, Nat.add_zero]
    have hdropLen : (stream.drop st.pos).length ≤ isizeMax := by
      rw [List.length_drop]
      omega
    have hinside := hst.inside
    rw [bind_eq_ok]
    rcases hbyte : stream[st.pos]? with _ | sizeByte
    · constructor
      · rintro ⟨_, h, -⟩
        cases h
      · rintro ⟨bs, tail, hblocks, htrailer, -⟩
        rw [hbyte] at hhead
        rcases hblocks.cases_head htrailer.head with ⟨h, -⟩ | ⟨_, _, _, h, -⟩
        · rw [hhead] at h
          cases h
        · rw [hhead] at h
          cases h
    rw [hbyte] at hhead
    have hpos := (List.getElem?_eq_some_iff.mp hbyte).1
    simp only [okOr, Except.ok.injEq, exists_eq_left']
    by_cases hsize : sizeByte = 0
    · subst hsize
      rw [if_pos rfl, sliceFrom_ok hinside, ok_bind, hrecords, bind_eq_ok]
      have hindex := @checkIndexAndFooter_eq_ok codecs _ flags hdropLen hhead hflags done
        (by unfold isizeMax at hw; omega) hsmall
      constructor
      · rintro ⟨_, hok, hret⟩
        cases hret
        exact ⟨[], _, .nil _, by rw [List.append_nil]; exact hindex.mp hok, by simp, hst.fits⟩
      · rintro ⟨bs, tail, hblocks, htrailer, rfl, -⟩
        rcases hblocks.cases_head htrailer.head with ⟨-, rfl, rfl⟩ | ⟨b, _, _, h, hne, -⟩
        · rw [List.append_nil] at htrailer
          exact ⟨(), hindex.mpr htrailer, by simp [pure_eq_ok]⟩
        · rw [hhead] at h
          exact absurd (Option.some.inj h).symm hne
    · rw [if_neg hsize, bind_eq_ok]
      simp only [readBlock_eq_ok hw hmax hcheck hst hbyte hsize]
      -- what holds after the block, and the blocks after it
      have hnext : ∀ b : Block, Spells stream st.pos (b.encode codecs) →
          b.Sound codecs check (stream.drop (st.pos + (b.encode codecs).length)) →
          st.out.length + b.plain.length ≤ maxOut →
          (readBlocks codecs stream maxOut true flags check checkLen turns (st.after codecs b) =
            .ok out ↔ ∃ bs tail,
            Blocks codecs check (stream.drop (st.pos + (b.encode codecs).length)) bs tail ∧
            Trailer codecs flags (done ++ [b] ++ bs) tail ∧
            out = st.out ++ b.contents ++ bs.flatMap Block.contents ∧ out.length ≤ maxOut) := by
        intro b hs hsound hfit
        have hlen := @Block.encode_length codecs _ hsound.header
        have hheader := hsound.header.length
        have hle := hs.le (List.ne_nil_of_length_pos (by omega))
        have hcontents := Block.contents_length hsound (by omega)
        have hpayload : b.payload.length =
            b.coded.length + ((padTo4 b.coded.length).length + b.check.length) := by
          rw [Block.payload, List.length_append, List.length_append]
        have hunpadded : b.unpaddedSize < wordSize := by
          unfold Block.unpaddedSize isizeMax wordSize at *
          omega
        refine @ih (st.after codecs b) (done ++ [b]) ⟨hle, ?_⟩ ?_ ?_ ?_ ?_
        · show (st.out ++ b.contents).length ≤ maxOut
          rw [List.length_append]
          omega
        · show stream.length < turns + (st.pos + (b.encode codecs).length)
          omega
        · rw [List.map_append, ← hrecords]
          rfl
        · show _ ≤ st.pos + (b.encode codecs).length
          rw [List.length_append, List.length_singleton]
          omega
        · intro b' hb'
          rcases List.mem_append.mp hb' with hb' | hb'
          · exact hsmall b' hb'
          · rw [List.mem_singleton.mp hb']
            exact ⟨hunpadded, by omega⟩
      constructor
      · rintro ⟨_, ⟨b, hs, hsound, hfit, rfl⟩, hok⟩
        obtain ⟨bs, tail, hblocks, htrailer, rfl, hlen⟩ := (hnext b hs hsound hfit).mp hok
        refine ⟨b :: bs, tail, ?_, ?_, ?_, hlen⟩
        · rw [hs]
          exact .cons hsound hblocks
        · rwa [List.append_assoc] at htrailer
        · rw [List.flatMap_cons, List.append_assoc]
      · rintro ⟨bs, tail, hblocks, htrailer, rfl, hlen⟩
        rcases hblocks.cases_head htrailer.head with ⟨h, -⟩ |
          ⟨b, bs', rest, -, -, rfl, hbytes, hsound, hmore⟩
        · rw [hhead] at h
          exact absurd (Option.some.inj h) hsize
        · obtain ⟨hs, rfl⟩ := spells_of_drop hbytes
          have hplain := (htrailer.small b (List.mem_append_right _ List.mem_cons_self)).2
          have hcontents := Block.contents_length hsound (Nat.lt_trans hplain (by decide))
          rw [List.flatMap_cons, List.length_append, List.length_append] at hlen
          have hfit : st.out.length + b.plain.length ≤ maxOut := by omega
          refine ⟨_, ⟨b, hs, hsound, hfit, rfl⟩, (hnext b hs hsound hfit).mpr
            ⟨bs', tail, hmore, ?_, ?_, ?_⟩⟩
          · rwa [List.append_assoc]
          · rw [List.flatMap_cons, List.append_assoc]
          · rw [List.flatMap_cons, List.length_append, List.length_append]
            exact hlen

theorem checkLength_of_known {check : UInt8}
    (h : check = 0x00 ∨ check = 0x01 ∨ check = 0x04 ∨ check = 0x0A) :
    ∃ n, checkLength check = .ok n := by
  rcases h with rfl | rfl | rfl | rfl
  · exact ⟨0, rfl⟩
  · exact ⟨4, rfl⟩
  · exact ⟨8, rfl⟩
  · exact ⟨32, rfl⟩

theorem known_of_checkLength {check : UInt8} {n : Nat} (h : checkLength check = .ok n) :
    check = 0x00 ∨ check = 0x01 ∨ check = 0x04 ∨ check = 0x0A := by
  rcases checkLength_eq_ok h with ⟨h, -⟩ | ⟨h, -⟩ | ⟨h, -⟩ | ⟨h, -⟩ <;> simp [h]

/-- **A stream is decoded exactly when it is a stored one** whose contents fit the output. -/
theorem decompress_eq_ok {stream : Bytes} (hw : stream.length ≤ isizeMax) {maxOut : Nat}
    (hmax : maxOut < wordSize) {out : Bytes} :
    decompress codecs stream maxOut = .ok out ↔
      ∃ second bs, Stored codecs stream second bs ∧ out = bs.flatMap Block.contents ∧
        out.length ≤ maxOut := by
  show decompressWith codecs stream maxOut true = .ok out ↔ _
  rw [decompressWith_unmetered, bind_eq_ok]
  unfold readStreamHeader startsWithMagic
  constructor
  · rintro ⟨⟨flags, check, checkLen⟩, h, hread⟩
    by_cases hlen : stream.length < 12
    · rw [if_pos hlen] at h
      cases h
    rw [if_neg hlen, slice_ok (by omega) (by omega), ok_bind, pure_eq_ok, ok_bind] at h
    split at h
    · cases h
    rename_i hmagic
    have hmagic : stream.take 6 = STREAM_MAGIC := by simpa using hmagic
    rw [slice_ok (by omega) (by omega), ok_bind] at h
    have hflagsLen : ((stream.drop 6).take 2).length = 2 := window_length (by omega)
    obtain ⟨first, second, hflags⟩ := List.length_eq_two.mp hflagsLen
    rw [show 8 - 6 = 2 from rfl, hflags] at h
    obtain ⟨crc, hcrc, h⟩ := bind_eq_ok.mp h
    rw [u32At_eq_ok] at hcrc
    change (if codecs.crc32 [first, second] ≠ crc ∨ first ≠ 0 then _ else _) = _ at h
    split at h
    · cases h
    rename_i hgood
    rw [not_or, not_not, not_not] at hgood
    obtain ⟨rfl, rfl⟩ := hgood
    obtain ⟨_, hsecond, h⟩ := bind_eq_ok.mp h
    cases hsecond
    obtain ⟨_, hcheck, h⟩ := bind_eq_ok.mp h
    cases h
    have hinv : Progress.Inv stream maxOut ⟨[], [], 12⟩ := ⟨Nat.le_of_not_lt hlen, Nat.zero_le _⟩
    obtain ⟨bs, tail, hblocks, htrailer, rfl, hfit⟩ :=
      (@readBlocks_eq_ok codecs stream [0, second] hw rfl maxOut hmax _ _ hcheck _ _ [] _ hinv
        (Nat.lt_add_of_pos_right (by decide)) rfl (Nat.zero_le _) nofun).mp hread
    refine ⟨second, bs, ⟨known_of_checkLength hcheck, stream.drop 12, tail, ?_, hblocks, htrailer⟩,
      List.nil_append _, hfit⟩
    calc stream = stream.take 6 ++ ((stream.drop 6).take 2 ++ stream.drop 8) := by
          rw [show stream.drop 8 = (stream.drop 6).drop 2 by rw [List.drop_drop],
            List.take_append_drop, List.take_append_drop]
      _ = _ := by
          rw [hmagic, hflags, hcrc.2, u32Bytes_length]
  · rintro ⟨second, bs, hstored, rfl, hlen⟩
    obtain ⟨checkLen, hcheck⟩ := checkLength_of_known hstored.known
    obtain ⟨body, tail, hstream, hblocks, htrailer⟩ := hstored.spelled
    have hmagic : Spells stream 0 STREAM_MAGIC ∧ Spells stream 6 [0, second] ∧
        Spells stream 8 (u32Bytes (codecs.crc32 [0, second])) ∧ stream.drop 12 = body := by
      obtain ⟨h₁, h⟩ := spells_of_drop (b := stream) (i := 0) (by rw [List.drop_zero]; exact hstream)
      obtain ⟨h₂, h⟩ := spells_of_drop h
      obtain ⟨h₃, h⟩ := spells_of_drop h
      rw [u32Bytes_length] at h
      exact ⟨h₁, h₂, h₃, h⟩
    obtain ⟨hs₁, hs₂, hs₃, rfl⟩ := hmagic
    have hlong := hs₃.le (List.ne_nil_of_length_eq_add_one (u32Bytes_length _))
    rw [u32Bytes_length] at hlong
    have hmagic : (slice stream 0 6 : Res Bytes) = .ok STREAM_MAGIC :=
      slice_eq_ok_spells.mpr ⟨by omega, hs₁, rfl⟩
    have hflags : (slice stream 6 8 : Res Bytes) = .ok [0, second] :=
      slice_eq_ok_spells.mpr ⟨by omega, hs₂, rfl⟩
    have hcrc : (u32At stream 8 : Res UInt32) = .ok (codecs.crc32 [0, second]) :=
      u32At_eq_ok.mpr ⟨by unfold wordSize; omega, hs₃⟩
    rw [if_neg (by omega), hmagic, ok_bind, pure_eq_ok, ok_bind, if_neg (by simp), hflags, ok_bind,
      hcrc, ok_bind]
    refine ⟨([0, second], second &&& 0x0F, checkLen), (if_neg (by simp)).trans ?_, ?_⟩
    · exact bind_eq_ok.mpr ⟨second, rfl, bind_eq_ok.mpr ⟨checkLen, hcheck, rfl⟩⟩
    have hinv : Progress.Inv stream maxOut ⟨[], [], 12⟩ := ⟨hlong, Nat.zero_le _⟩
    exact (@readBlocks_eq_ok codecs stream [0, second] hw rfl maxOut hmax _ _ hcheck _ _ [] _ hinv
      (Nat.lt_add_of_pos_right (by decide)) rfl (Nat.zero_le _) nofun).mpr
        ⟨bs, tail, hblocks, htrailer, (List.nil_append _).symm, hlen⟩

/-! ## A stream is stored in one way -/

/-- Two ways of storing the same blocks agree on their headers and their contents. -/
theorem Blocks.unique {check : UInt8} {n : Nat} (hcheck : checkLength check = .ok n)
    {bytes tail tail' : Bytes} {bs bs' : List Block} (h : Blocks codecs check bytes bs tail)
    (h' : Blocks codecs check bytes bs' tail') (hw : bytes.length ≤ isizeMax)
    (hzero : tail[0]? = some 0) (hzero' : tail'[0]? = some 0)
    (hsmall : ∀ b ∈ bs, b.plain.length < wordSize) (hsmall' : ∀ b ∈ bs', b.plain.length < wordSize) :
    bs.map (·.header.toBlockHeader) = bs'.map (·.header.toBlockHeader) ∧
      bs.flatMap Block.contents = bs'.flatMap Block.contents := by
  induction h generalizing bs' with
  | nil =>
    rcases h'.cases_head hzero' with ⟨-, rfl, -⟩ | ⟨b, _, _, hhead, hne, -⟩
    · exact ⟨rfl, rfl⟩
    · rw [hzero] at hhead
      exact absurd (Option.some.inj hhead).symm hne
  | @cons b bs rest tail sound more ih =>
    rcases h'.cases_head hzero' with ⟨hhead, -⟩ |
      ⟨b', bs'', rest', hhead, -, rfl, hbytes, sound', more'⟩
    · exact absurd (Option.some.inj hhead) sound.header.size
    have hbyte : (b.encode codecs ++ rest)[0]? = some b.header.sizeByte := Block.encode_head _ _
    have hinv : Progress.Inv (b.encode codecs ++ rest) (wordSize - 1) ⟨[], [], 0⟩ :=
      ⟨Nat.zero_le _, Nat.zero_le _⟩
    have hread : ∀ (d : Block) (after : Bytes), b.encode codecs ++ rest = d.encode codecs ++ after →
        d.Sound codecs check after → d.plain.length < wordSize →
        readBlock codecs (b.encode codecs ++ rest) (wordSize - 1) true check n ⟨[], [], 0⟩
          b.header.sizeByte = .ok (Progress.after ⟨[], [], 0⟩ codecs d) ∧
        readHeader codecs (b.encode codecs ++ rest) 0 b.header.sizeByte =
          .ok d.header.toBlockHeader := by
      intro d after heq hsound hlt
      have heq : (b.encode codecs ++ rest).drop 0 = d.encode codecs ++ after := heq
      obtain ⟨hs, hdrop⟩ := spells_of_drop heq
      refine ⟨(readBlock_eq_ok hw (Nat.sub_one_lt (by decide)) hcheck hinv hbyte
        sound.header.size).mpr ⟨d, hs, by rw [hdrop]; exact hsound, ?_, rfl⟩, ?_⟩
      · show [].length + d.plain.length ≤ wordSize - 1
        rw [List.length_nil]
        omega
      · exact (readHeader_eq_ok hw hbyte sound.header.size).mpr
          ⟨_, hsound.header, (spells_append.mp hs).1, rfl⟩
    obtain ⟨hblock, hheader⟩ := hread b rest rfl sound (hsmall b List.mem_cons_self)
    obtain ⟨hblock', hheader'⟩ := hread b' rest' hbytes sound' (hsmall' b' List.mem_cons_self)
    have hafter := Except.ok.inj (hblock.symm.trans hblock')
    have hlen : (b.encode codecs).length = (b'.encode codecs).length := by
      simpa [Progress.after] using congrArg Progress.pos hafter
    have hcontents : b.contents = b'.contents := by
      simpa [Progress.after] using congrArg Progress.out hafter
    obtain ⟨-, rfl⟩ := List.append_inj hbytes hlen
    obtain ⟨hheaders, hmore⟩ := ih more' (by rw [List.length_append] at hw; omega) hzero
      (fun d hd => hsmall d (List.mem_cons_of_mem _ hd))
      fun d hd => hsmall' d (List.mem_cons_of_mem _ hd)
    exact ⟨by rw [List.map_cons, List.map_cons, Except.ok.inj (hheader.symm.trans hheader'),
      hheaders], by rw [List.flatMap_cons, List.flatMap_cons, hcontents, hmore]⟩

/-- A stream has one second flag byte, and its blocks one list of headers and one content. -/
theorem Stored.unique {stream : Bytes} (hw : stream.length ≤ isizeMax) {second second' : UInt8}
    {bs bs' : List Block} (h : Stored codecs stream second bs)
    (h' : Stored codecs stream second' bs') :
    second = second' ∧ bs.map (·.header.toBlockHeader) = bs'.map (·.header.toBlockHeader) ∧
      bs.flatMap Block.contents = bs'.flatMap Block.contents := by
  obtain ⟨body, tail, rfl, hblocks, htrailer⟩ := h.spelled
  obtain ⟨body', tail', hstream, hblocks', htrailer'⟩ := h'.spelled
  have hrest := List.append_cancel_left hstream
  obtain rfl : second = second' := (List.cons.inj (List.cons.inj hrest).2).1
  have hbody := List.append_cancel_left (List.append_cancel_left hrest)
  subst hbody
  obtain ⟨n, hcheck⟩ := checkLength_of_known h.known
  refine ⟨rfl, hblocks.unique hcheck hblocks' ?_ htrailer.head htrailer'.head
    (fun b hb => Nat.lt_trans (htrailer.small b hb).2 (by decide))
    fun b hb => Nat.lt_trans (htrailer'.small b hb).2 (by decide)⟩
  simp only [List.length_append] at hw
  omega

end Squashfs.Xz
