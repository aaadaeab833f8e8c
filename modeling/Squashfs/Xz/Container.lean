import Squashfs.Codec
import Squashfs.Xz.Bcj

/-!
# The xz container with a branch converter

Model of `src/xz.rs` but for the converters: `has_filters` (75-86), `decompress_with` (97-259),
`check_index_and_footer` (269-317), `varint` (340-356) and the two CRCs (358-379). The one loop over
a stream's blocks is `readBlocks`, and the body of it `readBlock`.

`decompress` reads an `.xz` stream whose blocks may put one branch converter in front of LZMA2: the
stream header, then block after block (header, payload, padding, check), then the index and the
footer. LZMA2 itself and CRC32 are `Codecs`; CRC64 is computed here. `decompressM` is the same with
the readings of every block's sink.

**`safe_decompress`**: on every byte string and every bound the decoder ends in a value within the
bound or in an error, and fires no guard. **`below_decompress`**, **`covers_decompress`**: no
block's sink holds more than what the bound leaves it, and each block was held whole.
-/

namespace Squashfs.Xz

open Foundation Foundation.Metered

def STREAM_MAGIC : Bytes := [0xFD, 0x37, 0x7A, 0x58, 0x5A, 0x00]

def FILTER_LZMA2 : UInt64 := 0x21

/-- `Error::BadMetadata`. -/
abbrev bad {α : Type} (why : String) : Res α := fails (.badMetadata why)

/-- `o.ok_or(bad(why))`. -/
abbrev orBad {α : Type} (why : String) (o : Option α) : Res α := okOr (.badMetadata why) o

/-- Whether the stream's first block names a filter chain other than plain LZMA2. -/
def hasFilters (stream : Bytes) : Res Bool :=
  match getFrom stream 12 with
  | none => return false
  | some header => do
    if (← slice stream 0 6) ≠ STREAM_MAGIC then return false
    match header[0]? with
    | some size =>
      if size ≠ 0 then
        match header[1]? with
        | some flags => return flags &&& 0x03 != 0
        | none => return false
      else return false
    | none => return false

/-! ## Numbers and checks -/

/-- The turns of `varint`: the number and the position after it. -/
def varintLoop (buf : Bytes) : (turns i : Nat) → UInt64 → (pos : Nat) → Res (UInt64 × Nat)
  | 0, _, _, _ => bad "xz: varint longer than nine bytes"
  | turns + 1, i, value, pos => do
    let b ← orBad "xz: varint runs off the block header" buf[pos]?
    let pos ← add64 pos 1
    let value := value ||| (← shl64 (b &&& 0x7F).toUInt64 (7 * i))
    if b &&& 0x80 = 0 then
      if 0 < i ∧ b = 0 then bad "xz: varint is not minimally encoded"
      else return (value, pos)
    else varintLoop buf turns (i + 1) value pos

/-- A number of at most nine bytes, seven bits a byte. -/
def varint (buf : Bytes) (pos : Nat) : Res (UInt64 × Nat) := varintLoop buf 9 0 0 pos

def POLY : UInt64 := 0xC96C5795D7870F42

/-- One bit of the CRC-64/XZ division. -/
def crc64Bit (crc : UInt64) : UInt64 :=
  if crc &&& 1 ≠ 0 then (crc >>> 1) ^^^ POLY else crc >>> 1

def crc64Byte (crc : UInt64) (b : UInt8) : UInt64 := Nat.iterate crc64Bit 8 (crc ^^^ b.toUInt64)

/-- CRC-64/XZ: ECMA-182, reflected. -/
def crc64 (data : Bytes) : UInt64 := ~~~(data.foldl crc64Byte (~~~0))

/-- Skip zero bytes up to a multiple of four from `start`, refusing any other byte. -/
def zeroPadding (why : String) (buf : Bytes) (start : Nat) : (turns pos : Nat) → Res Nat
  | 0, pos => do
    if (← sub64 pos start) % 4 = 0 then return pos
    else .error .diverge
  | turns + 1, pos => do
    if (← sub64 pos start) % 4 = 0 then return pos
    else if buf[pos]? ≠ some 0 then bad why
    else zeroPadding why buf start turns (← add64 pos 1)

/-- The padding after a block's payload. -/
def blockPadding (stream : Bytes) (blockStart pos : Nat) : Res Nat :=
  zeroPadding "xz: block padding is not zero" stream blockStart 3 pos

/-- The padding after the index records. -/
def indexPadding (tail : Bytes) (pos : Nat) : Res Nat :=
  zeroPadding "xz: index padding is not zero" tail 0 3 pos

/-! ## Block headers -/

/-- What a block header says. -/
structure BlockHeader where
  len : Nat
  compressedSize : Option UInt64
  uncompressedSize : Option UInt64
  bcj : Option (Bcj × UInt32)
  deriving Repr, DecidableEq

/-- A number that is there only when its flag is set. -/
def optVarint (present : Bool) (body : Bytes) (pos : Nat) : Res (Option UInt64 × Nat) :=
  if present then do
    let (v, pos) ← varint body pos
    return (some v, pos)
  else return (none, pos)

/-- A converter's start offset, from its properties. -/
def bcjStart : Bytes → Res UInt32
  | [] => return 0
  | [a, b, c, d] => return u32le [a, b, c, d]
  | _ => bad "xz: BCJ properties are neither empty nor 4 bytes"

/-- The properties of the last filter. -/
def checkLzma2 : Bytes → Res Unit
  | [code] =>
    if code ≤ 40 then return ()
    else bad "xz: LZMA2 properties are not one byte of at most 40"
  | _ => bad "xz: LZMA2 properties are not one byte of at most 40"

/-- One filter of the chain: the converter so far and the position in the header's body. -/
def readFilter (body : Bytes) (filters : Nat) (st : Option (Bcj × UInt32) × Nat) (i : Nat) :
    Res (Option (Bcj × UInt32) × Nat) := do
  let (bcj, pos) := st
  let (id, pos) ← varint body pos
  let (len, pos) ← varint body pos
  let propsEnd ← orBad "xz: filter properties run off the block header" (checkedAdd pos len.toNat)
  let props ← orBad "xz: filter properties run off the block header" (getSlice body pos propsEnd)
  if (← add64 i 1) = filters then
    if id = FILTER_LZMA2 then do
      checkLzma2 props
      return (bcj, propsEnd)
    else bad "xz: the chain does not end in LZMA2"
  else if id = FILTER_LZMA2 then bad "xz: LZMA2 before the end of the chain"
  else if bcj.isSome then bad "xz: more than one filter before LZMA2"
  else do
    let start ← bcjStart props
    return (some (← Bcj.fromId id, start), propsEnd)

/-- The fields of a block header whose checksum matched; `body` is the header without it. -/
def readHeaderBody (headerLen : Nat) (body : Bytes) : Res BlockHeader := do
  let blockFlags ← index body 1
  if blockFlags &&& 0x3C ≠ 0 then bad "xz: reserved block flags set"
  else
    let (compressedSize, pos) ← optVarint (blockFlags &&& 0x40 != 0) body 2
    let (uncompressedSize, pos) ← optVarint (blockFlags &&& 0x80 != 0) body pos
    let filters := (blockFlags &&& 0x03).toNat + 1
    let (bcj, pos) ← (List.range filters).foldlM (readFilter body filters) (none, pos)
    if (← sliceFrom body pos).any (· ≠ 0) then bad "xz: block header padding is not zero"
    else return ⟨headerLen, compressedSize, uncompressedSize, bcj⟩

/-- The header of the block at `pos`, whose first byte is `sizeByte`. -/
def readHeader (codecs : Codecs) (stream : Bytes) (pos : Nat) (sizeByte : UInt8) :
    Res BlockHeader := do
  let headerLen := (sizeByte.toNat + 1) * 4
  let header ← orBad "xz: block header runs off the stream"
    (getSlice stream pos (← add64 pos headerLen))
  let stored ← sliceFrom header (← sub64 headerLen 4)
  let body ← slice header 0 (← sub64 headerLen 4)
  if codecs.crc32 body ≠ u32le (← array 4 stored) then bad "xz: block header checksum mismatch"
  else readHeaderBody headerLen body

/-! ## Blocks -/

/-- What has been decoded, the sizes the index must repeat, and where the next block is. -/
structure Progress where
  out : Bytes
  records : List (UInt64 × UInt64)
  pos : Nat
  deriving Repr, DecidableEq

/-- The bytes handed to LZMA2. -/
def blockPayload (stream : Bytes) (dataStart : Nat) (compressedSize : Option UInt64) :
    Res Bytes := do
  let payload ← orBad "xz: block has no payload" (getFrom stream dataStart)
  match compressedSize with
  | some n => orBad "xz: compressed size runs off the stream" (getSlice payload 0 n.toNat)
  | none => return payload

/-- The block check over the converted bytes; `check` is the stream's check type. -/
def verifyCheck (codecs : Codecs) (check : UInt8) (block storedCheck : Bytes) : Res Unit :=
  if check = 0x01 ∧ u32Bytes (codecs.crc32 block) ≠ storedCheck then bad "xz: block CRC32 mismatch"
  else if check = 0x04 ∧ u64Bytes (crc64 block) ≠ storedCheck then bad "xz: block CRC64 mismatch"
  else if check = 0x0A then bad "xz: SHA-256 checked blocks are not supported"
  else return ()

/-- LZMA2 into a sink that takes one byte more than the output has room for: the block and the
number of payload bytes it used. -/
def decodeLzma2M (codecs : Codecs) (payload : Bytes) (limit : Nat) :
    Metered Error (Bytes × Nat) := do
  let sink ← ((codecs.lzma2 payload).1.into ⟨[], limit⟩).mapErr
    fun () => .badMetadata "xz decompression failed"
  return (sink.buf, (codecs.lzma2 payload).2)

def decodeLzma2 (codecs : Codecs) (payload : Bytes) (limit : Nat) : Res (Bytes × Nat) :=
  (decodeLzma2M codecs payload limit).result

/-- The header of the next block, where its data starts, and its payload. -/
def openBlock (codecs : Codecs) (stream : Bytes) (st : Progress) (sizeByte : UInt8) :
    Res (BlockHeader × Nat × Bytes) := do
  let h ← readHeader codecs stream st.pos sizeByte
  let dataStart ← add64 st.pos h.len
  let payload ← blockPayload stream dataStart h.compressedSize
  return (h, dataStart, payload)

/-- What follows once a block's payload is decoded: its sizes, the padding, the converter and the
check. -/
def closeBlock (codecs : Codecs) (stream : Bytes) (maxOut : Nat) (runFilter : Bool)
    (check : UInt8) (checkLen : Nat) (st : Progress) (h : BlockHeader) (dataStart : Nat)
    (block : Bytes) (consumed : Nat) : Res Progress := do
  if h.compressedSize.any (·.toNat ≠ consumed) then
    bad "xz: compressed size disagrees with the payload"
  else if h.uncompressedSize.any (·.toNat ≠ block.length) then
    bad "xz: uncompressed size disagrees with the payload"
  else if maxOut < (← add64 st.out.length block.length) then
    bad "decompressed block exceeds max size"
  else
    let stop ← blockPadding stream st.pos (← add64 dataStart consumed)
    let next ← add64 stop checkLen
    let storedCheck ← orBad "xz: block check runs off the stream" (getSlice stream stop next)
    let unpadded ← add64 (← add64 h.len consumed) checkLen
    let records := st.records ++ [(UInt64.ofNat unpadded, UInt64.ofNat block.length)]
    match h.bcj with
    | some (kind, start) =>
      if ¬ runFilter then return ⟨st.out ++ block, records, next⟩
      else
        let converted ← decode kind start block
        verifyCheck codecs check converted storedCheck
        return ⟨st.out ++ converted, records, next⟩
    | none =>
      verifyCheck codecs check block storedCheck
      return ⟨st.out ++ block, records, next⟩

/-- One block. The meter shows the output before it together with what its sink holds. -/
def readBlockM (codecs : Codecs) (stream : Bytes) (maxOut : Nat) (runFilter : Bool) (check : UInt8)
    (checkLen : Nat) (st : Progress) (sizeByte : UInt8) : Metered Error Progress := do
  let (h, dataStart, payload) ← openBlock codecs stream st sizeByte
  let (block, consumed) ←
    (decodeLzma2M codecs payload (saturatingAdd (maxOut - st.out.length) 1)).above st.out.length
  closeBlock codecs stream maxOut runFilter check checkLen st h dataStart block consumed

def readBlock (codecs : Codecs) (stream : Bytes) (maxOut : Nat) (runFilter : Bool) (check : UInt8)
    (checkLen : Nat) (st : Progress) (sizeByte : UInt8) : Res Progress :=
  (readBlockM codecs stream maxOut runFilter check checkLen st sizeByte).result

/-! ## The index and the footer -/

/-- One record of the index against its block. -/
def checkRecord (tail : Bytes) (pos : Nat) (record : UInt64 × UInt64) : Res Nat := do
  let (unpadded, pos) ← varint tail pos
  if unpadded ≠ record.1 then bad "xz: index record disagrees with its block"
  else
    let (uncompressed, pos) ← varint tail pos
    if uncompressed ≠ record.2 then bad "xz: index record disagrees with its block"
    else return pos

/-- The footer of a stream whose index is `indexLen` bytes long. -/
def checkFooter (codecs : Codecs) (tail : Bytes) (indexLen : Nat) (headerFlags : Bytes) :
    Res Unit := do
  let footerEnd ← add64 indexLen 12
  let footer ← orBad "xz: stream ends before its footer" (getSlice tail indexLen footerEnd)
  if (← sliceFrom footer 10) ≠ [0x59, 0x5A] then bad "xz: stream footer magic is wrong"
  else if u32Bytes (codecs.crc32 (← slice footer 4 10)) ≠ (← slice footer 0 4) then
    bad "xz: stream footer is damaged"
  else if (← slice footer 8 10) ≠ headerFlags then
    bad "xz: stream footer flags disagree with the header"
  else
    let backward ← u32At footer 4
    if (backward.toNat + 1) * 4 ≠ indexLen then
      bad "xz: stream footer's backward size disagrees with the index"
    else
      let padding ← sliceFrom tail footerEnd
      if padding.length % 4 ≠ 0 ∨ padding.any (· ≠ 0) then
        bad "xz: bytes after the stream footer"
      else return ()

/-- The index that follows the last block, and the stream footer after it. -/
def checkIndexAndFooter (codecs : Codecs) (tail : Bytes) (records : List (UInt64 × UInt64))
    (headerFlags : Bytes) : Res Unit := do
  let (count, pos) ← varint tail 1
  if count ≠ UInt64.ofNat records.length then
    bad "xz: index record count disagrees with the blocks"
  else
    let pos ← records.foldlM (checkRecord tail) pos
    let pos ← indexPadding tail pos
    let indexLen ← add64 pos 4
    let stored ← orBad "xz: index CRC32 runs off the stream" (getSlice tail pos indexLen)
    if u32Bytes (codecs.crc32 (← slice tail 0 pos)) ≠ stored then bad "xz: index CRC32 mismatch"
    else checkFooter codecs tail indexLen headerFlags

/-! ## The stream -/

/-- The length of a check of type `check`. -/
def checkLength (check : UInt8) : Res Nat :=
  if check = 0x00 then return 0
  else if check = 0x01 then return 4
  else if check = 0x04 then return 8
  else if check = 0x0A then return 32
  else bad "xz: unknown check type"

/-- Block after block up to the index. -/
def readBlocksM (codecs : Codecs) (stream : Bytes) (maxOut : Nat) (runFilter : Bool)
    (flags : Bytes) (check : UInt8) (checkLen : Nat) : Nat → Progress → Metered Error Bytes
  | 0, _ => (.error .diverge : Res Bytes)
  | turns + 1, st => do
    let sizeByte ← orBad "xz: stream ends before its index" stream[st.pos]?
    if sizeByte = 0 then
      checkIndexAndFooter codecs (← (sliceFrom stream st.pos : Res Bytes)) st.records flags
      return st.out
    else
      let st ← readBlockM codecs stream maxOut runFilter check checkLen st sizeByte
      readBlocksM codecs stream maxOut runFilter flags check checkLen turns st

def readBlocks (codecs : Codecs) (stream : Bytes) (maxOut : Nat) (runFilter : Bool) (flags : Bytes)
    (check : UInt8) (checkLen turns : Nat) (st : Progress) : Res Bytes :=
  (readBlocksM codecs stream maxOut runFilter flags check checkLen turns st).result

/-- Whether the stream begins with the magic. -/
def startsWithMagic (stream : Bytes) : Res Bool :=
  if stream.length < 12 then return false else return (← slice stream 0 6) == STREAM_MAGIC

/-- What comes before the blocks: the flags, the check type and the check's length. -/
def readStreamHeader (codecs : Codecs) (stream : Bytes) : Res (Bytes × UInt8 × Nat) := do
  if ¬ (← startsWithMagic stream) then bad "xz: not an xz stream"
  else
    let flags ← slice stream 6 8
    if codecs.crc32 flags ≠ (← u32At stream 8) ∨ (← index flags 0) ≠ 0 then
      bad "xz: stream header is damaged"
    else
      let check := (← index flags 1) &&& 0x0F
      return (flags, check, ← checkLength check)

/-- `decompress_with`: `decompress`, optionally without running the converter. -/
def decompressWithM (codecs : Codecs) (stream : Bytes) (maxOut : Nat) (runFilter : Bool) :
    Metered Error Bytes := do
  let (flags, check, checkLen) ← readStreamHeader codecs stream
  readBlocksM codecs stream maxOut runFilter flags check checkLen stream.length ⟨[], [], 12⟩

def decompressWith (codecs : Codecs) (stream : Bytes) (maxOut : Nat) (runFilter : Bool) :
    Res Bytes := (decompressWithM codecs stream maxOut runFilter).result

/-- Decode a whole stream whose blocks may carry one branch converter before LZMA2, producing
at most `maxOut` bytes. -/
def decompressM (codecs : Codecs) (stream : Bytes) (maxOut : Nat) : Metered Error Bytes :=
  decompressWithM codecs stream maxOut true

def decompress (codecs : Codecs) (stream : Bytes) (maxOut : Nat) : Res Bytes :=
  (decompressM codecs stream maxOut).result

/-! ## Without the meter -/

theorem decodeLzma2_unmetered (codecs : Codecs) (payload : Bytes) (limit : Nat) :
    decodeLzma2 codecs payload limit =
      mapErr (fun () => .badMetadata "xz decompression failed")
        ((codecs.lzma2 payload).1.into ⟨[], limit⟩).result >>= fun sink =>
          .ok (sink.buf, (codecs.lzma2 payload).2) := by
  unfold decodeLzma2 decodeLzma2M
  simp only [result_bind, result_mapErr, result_pure]

theorem readBlock_unmetered (codecs : Codecs) (stream : Bytes) (maxOut : Nat) (runFilter : Bool)
    (check : UInt8) (checkLen : Nat) (st : Progress) (sizeByte : UInt8) :
    readBlock codecs stream maxOut runFilter check checkLen st sizeByte = (do
      let h ← readHeader codecs stream st.pos sizeByte
      let dataStart ← add64 st.pos h.len
      let payload ← blockPayload stream dataStart h.compressedSize
      let (block, consumed) ←
        decodeLzma2 codecs payload (saturatingAdd (maxOut - st.out.length) 1)
      closeBlock codecs stream maxOut runFilter check checkLen st h dataStart block consumed) := by
  unfold readBlock readBlockM openBlock
  rw [result_bind, result_lift, bind_assoc]
  refine bind_congr fun h => ?_
  rw [bind_assoc]
  refine bind_congr fun dataStart => ?_
  rw [bind_assoc]
  refine bind_congr fun payload => ?_
  rw [pure_bind, result_bind, result_above]
  rfl

theorem readBlocks_unmetered (codecs : Codecs) (stream : Bytes) (maxOut : Nat) (runFilter : Bool)
    (flags : Bytes) (check : UInt8) (checkLen turns : Nat) (st : Progress) :
    readBlocks codecs stream maxOut runFilter flags check checkLen (turns + 1) st = (do
      let sizeByte ← orBad "xz: stream ends before its index" stream[st.pos]?
      if sizeByte = 0 then
        checkIndexAndFooter codecs (← sliceFrom stream st.pos) st.records flags
        return st.out
      else
        let st ← readBlock codecs stream maxOut runFilter check checkLen st sizeByte
        readBlocks codecs stream maxOut runFilter flags check checkLen turns st) := by
  rw [readBlocks, readBlocksM]
  simp only [result_bind, result_lift, result_ite, result_pure]
  rfl

theorem decompressWith_unmetered (codecs : Codecs) (stream : Bytes) (maxOut : Nat)
    (runFilter : Bool) :
    decompressWith codecs stream maxOut runFilter = (do
      let (flags, check, checkLen) ← readStreamHeader codecs stream
      readBlocks codecs stream maxOut runFilter flags check checkLen stream.length
        ⟨[], [], 12⟩) := by
  unfold decompressWith decompressWithM
  rw [result_bind]
  rfl

/-! ## The decoder returns -/

@[simp] theorem safe_bad {α : Type} {P : α → Prop} (why : String) : Safe P (bad why : Res α) :=
  trivial

theorem returns_hasFilters (stream : Bytes) : Returns (hasFilters stream) := by
  unfold hasFilters
  cases hheader : getFrom stream 12 with
  | none => trivial
  | some header =>
    have hlen : 12 ≤ stream.length := (getFrom_eq_some.mp hheader).1
    simp only [slice_ok (Nat.zero_le 6) (show 6 ≤ stream.length by omega), ok_bind]
    split
    · trivial
    · split
      · split
        · split <;> trivial
        · trivial
      · trivial

theorem safe_varintLoop {buf : Bytes} (hw : buf.length < wordSize) {turns i : Nat}
    {value : UInt64} {pos : Nat} (hi : turns + i = 9) :
    Safe (fun r => pos < r.2 ∧ r.2 ≤ buf.length) (varintLoop buf turns i value pos) := by
  induction turns generalizing i value pos with
  | zero => exact safe_bad _
  | succ turns ih =>
    unfold varintLoop
    refine safe_bind (safe_okOr _ _) fun b hb => ?_
    have hpos := (List.getElem?_eq_some_iff.mp hb).1
    rw [add64_ok (by omega), ok_bind]
    refine safe_bind (gives_shl64 (by omega)).safe fun _ _ => ?_
    refine safe_ite (fun _ => safe_ite (fun _ => safe_bad _) fun _ => ?_) fun _ => ?_
    · exact ⟨Nat.lt_succ_self pos, hpos⟩
    · exact (ih (by omega)).mono fun r hr => by omega

/-- A number read moves the position forward, inside the buffer. -/
theorem safe_varint {buf : Bytes} (hw : buf.length < wordSize) (pos : Nat) :
    Safe (fun r => pos < r.2 ∧ r.2 ≤ buf.length) (varint buf pos) := safe_varintLoop hw rfl

/-- Padding moves the position forward by less than four, and inside the buffer. -/
theorem safe_zeroPadding {why : String} {buf : Bytes} {start turns pos : Nat}
    (hw : buf.length < wordSize) (hpos : start ≤ pos) (hlen : pos ≤ buf.length)
    (hturns : (pos - start) % 4 = 0 ∨ 4 ≤ turns + (pos - start) % 4) :
    Safe (fun next => pos ≤ next ∧ next ≤ buf.length) (zeroPadding why buf start turns pos) := by
  induction turns generalizing pos with
  | zero =>
    unfold zeroPadding
    rw [sub64_ok hpos, ok_bind, if_pos (by omega)]
    exact ⟨Nat.le_refl _, hlen⟩
  | succ turns ih =>
    unfold zeroPadding
    rw [sub64_ok hpos, ok_bind]
    refine safe_ite (fun _ => ⟨Nat.le_refl _, hlen⟩) fun hne => ?_
    refine safe_ite (fun _ => safe_bad _) fun hzero => ?_
    have hlt := (List.getElem?_eq_some_iff.mp (Decidable.not_not.mp hzero)).1
    rw [add64_ok (by omega), ok_bind]
    exact (ih (by omega) hlt (by omega)).mono fun next hnext => by omega

/-! ### Headers -/

theorem safe_optVarint {present : Bool} {body : Bytes} {pos : Nat} (hw : body.length < wordSize)
    (hpos : pos ≤ body.length) :
    Safe (fun r => r.2 ≤ body.length) (optVarint present body pos) := by
  unfold optVarint
  refine safe_ite (fun _ => ?_) fun _ => hpos
  exact safe_bind (safe_varint hw pos) fun r hr => hr.2

theorem returns_bcjStart (props : Bytes) : Returns (bcjStart props) := by
  unfold bcjStart
  split <;> trivial

theorem returns_checkLzma2 (props : Bytes) : Returns (checkLzma2 props) := by
  unfold checkLzma2
  split
  · split <;> trivial
  · trivial

theorem returns_fromId (id : UInt64) : Returns (Bcj.fromId id) := by
  unfold Bcj.fromId
  repeat' split
  all_goals trivial

/-- A filter leaves the position inside the header. -/
theorem safe_readFilter {body : Bytes} {filters : Nat} {st : Option (Bcj × UInt32) × Nat}
    {i : Nat} (hw : body.length < wordSize) (hi : i < 4) :
    Safe (fun st' => st'.2 ≤ body.length) (readFilter body filters st i) := by
  have htrue : ∀ {α : Type} {x : Res α}, Returns x → Safe (fun _ => True) x :=
    fun h => h.safe fun _ _ => trivial
  unfold readFilter
  refine safe_bind (safe_varint hw _) fun x _ => ?_
  refine safe_bind (safe_varint hw _) fun y _ => ?_
  refine safe_bind (safe_okOr _ _) fun propsEnd _ => ?_
  refine safe_bind (safe_okOr _ _) fun props hprops => ?_
  have hend := (getSlice_eq_some.mp hprops).1.2
  rw [add64_ok (by unfold wordSize; omega), ok_bind]
  refine safe_ite (fun _ => safe_ite (fun _ => ?_) fun _ => safe_bad _) fun _ => ?_
  · exact safe_bind (htrue (returns_checkLzma2 _)) fun _ _ => hend
  refine safe_ite (fun _ => safe_bad _) fun _ => safe_ite (fun _ => safe_bad _) fun _ => ?_
  refine safe_bind (htrue (returns_bcjStart _)) fun _ _ => ?_
  exact safe_bind (htrue (returns_fromId _)) fun _ _ => hend

theorem safe_readHeaderBody {headerLen : Nat} {body : Bytes} (hw : body.length < wordSize)
    (h : 2 ≤ body.length) :
    Safe (fun r => r.len = headerLen) (readHeaderBody headerLen body) := by
  unfold readHeaderBody
  refine safe_bind (gives_index (by omega)).safe fun flags _ => ?_
  refine safe_ite (fun _ => safe_bad _) fun _ => ?_
  refine safe_bind (safe_optVarint hw h) fun c hc => ?_
  refine safe_bind (safe_optVarint hw hc) fun u hu => ?_
  have hflags : (flags &&& 0x03).toNat ≤ 3 := by
    rw [UInt8.toNat_and]
    exact Nat.and_le_right
  refine safe_bind (safe_foldlM (P := fun st => st.2 ≤ body.length) hu fun st i hi _ => ?_)
    fun ⟨bcj, last⟩ hlast => ?_
  · exact safe_readFilter hw (by have := List.mem_range.mp hi; omega)
  have hlast : last ≤ body.length := hlast
  dsimp only
  rw [sliceFrom_ok hlast, ok_bind]
  exact safe_ite (fun _ => safe_bad _) fun _ => rfl

/-- A header lies inside the stream and is at least eight bytes long. -/
theorem safe_readHeader {codecs : Codecs} {stream : Bytes} {pos : Nat} {sizeByte : UInt8}
    (hw : stream.length ≤ isizeMax) (hpos : pos ≤ stream.length) (hsize : sizeByte ≠ 0) :
    Safe (fun r => 8 ≤ r.len ∧ pos + r.len ≤ stream.length)
      (readHeader codecs stream pos sizeByte) := by
  have hlt := sizeByte.toNat_lt
  have hne : sizeByte.toNat ≠ 0 := fun h0 => hsize (UInt8.toNat_inj.mp h0)
  unfold isizeMax at hw
  unfold readHeader
  dsimp only
  rw [add64_ok (by unfold wordSize; omega), ok_bind]
  refine safe_bind (safe_okOr _ _) fun header hheader => ?_
  obtain ⟨⟨-, hend⟩, rfl⟩ := getSlice_eq_some.mp hheader
  rw [Nat.add_sub_cancel_left]
  have hlen := window_length hend
  rw [sub64_ok (by omega), ok_bind, sliceFrom_ok (by omega), ok_bind, ok_bind,
    slice_ok (Nat.zero_le _) (by omega), ok_bind,
    array_ok (by rw [List.length_drop, hlen]; omega), ok_bind]
  refine safe_ite (fun _ => safe_bad _) fun _ => ?_
  refine (safe_readHeaderBody ?_ ?_).mono fun r hr => ?_
  · rw [List.length_take, List.length_drop, hlen]
    unfold wordSize
    omega
  · rw [List.length_take, List.length_drop, hlen]
    omega
  · rw [hr]
    exact ⟨by omega, hend⟩

/-! ### Blocks -/

/-- The sink's contents never exceed its limit, and the position stays inside the payload. -/
theorem safe_decodeLzma2 {codecs : Codecs} {payload : Bytes} {limit : Nat}
    (hl : limit ≤ isizeMax) :
    Safe (fun r => r.1.length ≤ limit ∧ r.2 ≤ payload.length)
      (decodeLzma2 codecs payload limit) := by
  have hret : Returns ((codecs.lzma2 payload).1.into ⟨[], limit⟩).result :=
    Decoding.returns_into (Nat.zero_le _) hl
  rw [decodeLzma2_unmetered]
  cases hrun : ((codecs.lzma2 payload).1.into ⟨[], limit⟩).result with
  | ok sink =>
    obtain ⟨-, rfl, hfit⟩ := Decoding.into_eq_ok hrun
    refine ⟨?_, codecs.lzma2_position_le payload⟩
    simpa using hfit (Nat.zero_le _)
  | error f =>
    rw [hrun] at hret
    cases f with
    | err u => trivial
    | panic => exact hret
    | diverge => exact hret

theorem safe_blockPayload {stream : Bytes} {dataStart : Nat} {size : Option UInt64} :
    Safe (fun payload => dataStart + payload.length ≤ stream.length)
      (blockPayload stream dataStart size) := by
  unfold blockPayload
  refine safe_bind (safe_okOr _ _) fun payload hpayload => ?_
  obtain ⟨hle, rfl⟩ := getFrom_eq_some.mp hpayload
  have hlen : dataStart + (stream.drop dataStart).length ≤ stream.length := by
    rw [List.length_drop]
    omega
  cases size with
  | none => exact hlen
  | some n =>
    refine (safe_okOr _ _).mono fun window hwindow => ?_
    obtain ⟨-, rfl⟩ := getSlice_eq_some.mp hwindow
    rw [List.length_take, List.length_drop, List.length_drop]
    omega

theorem returns_verifyCheck (codecs : Codecs) (check : UInt8) (block storedCheck : Bytes) :
    Returns (verifyCheck codecs check block storedCheck) := by
  unfold verifyCheck
  repeat' split
  all_goals trivial

/-- What holds between two blocks. -/
structure Progress.Inv (stream : Bytes) (maxOut : Nat) (st : Progress) : Prop where
  inside : st.pos ≤ stream.length
  fits : st.out.length ≤ maxOut

/-- **A block returns**, moves the position forward and keeps the output within its bound. -/
theorem safe_readBlock {codecs : Codecs} {stream : Bytes} {maxOut : Nat} {runFilter : Bool}
    {check : UInt8} {checkLen : Nat} {st : Progress} {sizeByte : UInt8}
    (hw : stream.length ≤ isizeMax) (hmax : maxOut < isizeMax) (hcheck : checkLen ≤ 32)
    (hst : st.Inv stream maxOut) (hsize : sizeByte ≠ 0) :
    Safe (fun st' => st'.Inv stream maxOut ∧ st.pos < st'.pos)
      (readBlock codecs stream maxOut runFilter check checkLen st sizeByte) := by
  have hout := hst.fits
  have hlimit : saturatingAdd (maxOut - st.out.length) 1 = maxOut - st.out.length + 1 :=
    saturatingAdd_eq (by unfold isizeMax wordSize at *; omega)
  rw [readBlock_unmetered]
  refine safe_bind (safe_readHeader hw hst.inside hsize) fun h hh => ?_
  rw [add64_ok (by unfold isizeMax wordSize at *; omega), ok_bind, hlimit]
  refine safe_bind safe_blockPayload fun payload hpayload => ?_
  refine safe_bind (safe_decodeLzma2 (by omega)) fun ⟨block, consumed⟩ hblock => ?_
  have hfit : block.length ≤ maxOut - st.out.length + 1 := hblock.1
  have hused : consumed ≤ payload.length := hblock.2
  have hdata : st.pos + h.len + consumed ≤ stream.length := by omega
  unfold closeBlock
  refine safe_ite (fun _ => safe_bad _) fun _ => safe_ite (fun _ => safe_bad _) fun _ => ?_
  rw [add64_ok (by unfold isizeMax wordSize at *; omega), ok_bind]
  refine safe_ite (fun _ => safe_bad _) fun hroom => ?_
  rw [add64_ok (by unfold isizeMax wordSize at *; omega), ok_bind]
  refine safe_bind (safe_zeroPadding (by unfold isizeMax wordSize at *; omega) (by omega) hdata
    (by omega)) fun stop hstop => ?_
  rw [add64_ok (by unfold isizeMax wordSize at *; omega), ok_bind]
  refine safe_bind (safe_okOr _ _) fun storedCheck hstored => ?_
  have hnext := (getSlice_eq_some.mp hstored).1.2
  rw [add64_ok (by unfold isizeMax wordSize at *; omega), ok_bind,
    add64_ok (by unfold isizeMax wordSize at *; omega), ok_bind]
  have hverify : ∀ b, Safe (fun _ => True) (verifyCheck codecs check b storedCheck) :=
    fun b => (returns_verifyCheck _ _ _ _).safe fun _ _ => trivial
  have hplain : Progress.Inv stream maxOut ⟨st.out ++ block, st.records ++
      [(UInt64.ofNat (h.len + consumed + checkLen), UInt64.ofNat block.length)],
      stop + checkLen⟩ := ⟨hnext, by simp only [List.length_append]; omega⟩
  cases h.bcj with
  | none => exact safe_bind (hverify _) fun _ _ => ⟨hplain, by dsimp only; omega⟩
  | some filter =>
    refine safe_ite (fun _ => ⟨hplain, by dsimp only; omega⟩) fun _ => ?_
    have hsmall : block.length < wordSize := by unfold isizeMax wordSize at *; omega
    refine safe_bind (decode_keeps filter.1 filter.2 block hsmall).safe fun converted hlen => ?_
    refine safe_bind (hverify _) fun _ _ => ⟨⟨hnext, ?_⟩, by dsimp only; omega⟩
    simp only [List.length_append]
    omega

/-! ### The index and the stream -/

theorem safe_checkRecord {tail : Bytes} (hw : tail.length < wordSize) (pos : Nat)
    (record : UInt64 × UInt64) :
    Safe (fun next => next ≤ tail.length) (checkRecord tail pos record) := by
  unfold checkRecord
  refine safe_bind (safe_varint hw _) fun x _ => safe_ite (fun _ => safe_bad _) fun _ => ?_
  exact safe_bind (safe_varint hw _) fun y hy => safe_ite (fun _ => safe_bad _) fun _ => hy.2

theorem returns_checkFooter {codecs : Codecs} {tail : Bytes} {indexLen : Nat} {flags : Bytes}
    (hw : tail.length ≤ isizeMax) (hi : indexLen ≤ tail.length) :
    Returns (checkFooter codecs tail indexLen flags) := by
  unfold checkFooter
  rw [add64_ok (by unfold isizeMax wordSize at *; omega), ok_bind]
  refine returns_bind (safe_okOr _ _).returns fun footer hfooter => ?_
  obtain ⟨⟨-, hend⟩, rfl⟩ := getSlice_eq_some.mp (okOr_eq_ok.mp hfooter)
  rw [Nat.add_sub_cancel_left]
  generalize hwindow : (tail.drop indexLen).take 12 = window
  have hlen : window.length = 12 := by rw [← hwindow]; exact window_length hend
  rw [sliceFrom_ok (by omega), ok_bind, slice_ok (by omega) (by omega),
    slice_ok (by omega) (by omega), slice_ok (by omega) (by omega),
    u32At_ok (by omega) (by unfold wordSize; omega), sliceFrom_ok hend]
  simp only [ok_bind]
  repeat' refine returns_ite (fun _ => trivial) fun _ => ?_
  trivial

theorem returns_checkIndexAndFooter {codecs : Codecs} {tail : Bytes}
    {records : List (UInt64 × UInt64)} {flags : Bytes} (hw : tail.length ≤ isizeMax) :
    Returns (checkIndexAndFooter codecs tail records flags) := by
  have hlt : tail.length < wordSize := by unfold isizeMax wordSize at *; omega
  unfold checkIndexAndFooter
  refine Safe.returns (P := fun _ => True) (safe_bind (safe_varint hlt _) fun ⟨count, p⟩ hp => ?_)
  refine safe_ite (fun _ => safe_bad _) fun _ => ?_
  refine safe_bind (safe_foldlM (P := (· ≤ tail.length)) hp.2 fun _ record _ _ =>
    safe_checkRecord hlt _ record) fun q hq => ?_
  refine safe_bind (safe_zeroPadding hlt (Nat.zero_le _) hq (by omega)) fun r hr => ?_
  rw [add64_ok (by unfold isizeMax wordSize at *; omega), ok_bind]
  refine safe_bind (safe_okOr _ _) fun stored hstored => ?_
  have hi := (getSlice_eq_some.mp hstored).1.2
  rw [slice_ok (Nat.zero_le _) hr.2, ok_bind]
  exact safe_ite (fun _ => safe_bad _) fun _ => (returns_checkFooter hw hi).safe fun _ _ => trivial

theorem safe_readBlocks {codecs : Codecs} {stream : Bytes} {maxOut : Nat} {runFilter : Bool}
    {flags : Bytes} {check : UInt8} {checkLen turns : Nat} {st : Progress}
    (hw : stream.length ≤ isizeMax) (hmax : maxOut < isizeMax) (hcheck : checkLen ≤ 32)
    (hst : st.Inv stream maxOut) (hturns : stream.length < turns + st.pos) :
    Safe (·.length ≤ maxOut)
      (readBlocks codecs stream maxOut runFilter flags check checkLen turns st) := by
  induction turns generalizing st with
  | zero => exact absurd hst.inside (by omega)
  | succ turns ih =>
    rw [readBlocks_unmetered]
    refine safe_bind (safe_okOr _ _) fun sizeByte _ => safe_ite (fun _ => ?_) fun hsize => ?_
    · rw [sliceFrom_ok hst.inside, ok_bind]
      have hindex : Safe (fun _ => True)
          (checkIndexAndFooter codecs (stream.drop st.pos) st.records flags) :=
        (returns_checkIndexAndFooter (by rw [List.length_drop]; omega)).safe fun _ _ => trivial
      exact safe_bind hindex fun _ _ => hst.fits
    · refine safe_bind (safe_readBlock hw hmax hcheck hst hsize) fun st' hst' => ?_
      exact ih hst'.1 (by omega)

theorem safe_checkLength (check : UInt8) : Safe (· ≤ 32) (checkLength check) := by
  unfold checkLength
  repeat' split
  all_goals simp

/-- The stream header is twelve bytes, and its check is at most 32 bytes long. -/
theorem safe_readStreamHeader (codecs : Codecs) (stream : Bytes) :
    Safe (fun r => r.2.2 ≤ 32 ∧ 12 ≤ stream.length) (readStreamHeader codecs stream) := by
  unfold readStreamHeader startsWithMagic
  by_cases hlen : stream.length < 12
  · rw [if_pos hlen]
    trivial
  have hflags : ((stream.drop 6).take 2).length = 2 := window_length (by omega)
  rw [if_neg hlen, slice_ok (by omega) (by omega), ok_bind,
    slice_ok (by omega) (by omega), show 8 - 6 = 2 from rfl,
    u32At_ok (by omega) (by unfold wordSize; omega)]
  refine safe_bind (P := fun _ => True) trivial fun magic _ => safe_ite (fun _ => trivial) ?_
  intro _
  rw [ok_bind, ok_bind]
  refine safe_bind (gives_index (by omega)).safe fun flag0 _ => safe_ite (fun _ => trivial) ?_
  intro _
  refine safe_bind (gives_index (by omega)).safe fun flag1 _ => ?_
  refine safe_bind (safe_checkLength (flag1 &&& 0x0F)) fun checkLen hcheck => ?_
  exact ⟨hcheck, Nat.le_of_not_lt hlen⟩

/-- **The decoder returns** on every stream and every bound a caller can have, and what it gives
fits the bound. -/
theorem safe_decompress (codecs : Codecs) {stream : Bytes} {maxOut : Nat}
    (hw : stream.length ≤ isizeMax) (hmax : maxOut < isizeMax) :
    Safe (·.length ≤ maxOut) (decompress codecs stream maxOut) := by
  show Safe _ (decompressWith codecs stream maxOut true)
  rw [decompressWith_unmetered]
  refine safe_bind (safe_readStreamHeader codecs stream) fun ⟨flags, check, checkLen⟩ h => ?_
  have hinv : Progress.Inv stream maxOut ⟨[], [], 12⟩ := ⟨h.2, Nat.zero_le _⟩
  exact safe_readBlocks hw hmax h.1 hinv (by dsimp only; omega)

/-! ## What is held -/

theorem below_decodeLzma2 (codecs : Codecs) (payload : Bytes) {limit n : Nat} (hn : limit ≤ n) :
    Below n (·.1.length ≤ limit) (decodeLzma2M codecs payload limit) :=
  (Decoding.below_into _ (Nat.zero_le _) hn).mapErr.bind fun _ h => below_pure h

theorem covers_decodeLzma2 (codecs : Codecs) (payload : Bytes) (limit : Nat) :
    Covers 0 (·.1.length) (decodeLzma2M codecs payload limit) :=
  (Decoding.covers_into _ _).mapErr.bind fun _ _ =>
    covers_of_le fun r h => by cases h; exact Nat.le_refl _

/-- A block closed is the output so far with as many bytes more as were decoded, within the
bound. -/
theorem closeBlock_length {codecs : Codecs} {stream block : Bytes} {maxOut consumed : Nat}
    {runFilter : Bool} {check : UInt8} {checkLen dataStart : Nat} {st st' : Progress}
    {h : BlockHeader} (hblock : block.length < wordSize)
    (hclose : closeBlock codecs stream maxOut runFilter check checkLen st h dataStart block
      consumed = .ok st') :
    st'.out.length = st.out.length + block.length ∧ st'.out.length ≤ maxOut := by
  unfold closeBlock at hclose
  split at hclose
  · cases hclose
  split at hclose
  · cases hclose
  obtain ⟨total, htotal, hclose⟩ := bind_eq_ok.mp hclose
  obtain ⟨-, rfl⟩ := add64_eq_ok.mp htotal
  split at hclose
  · cases hclose
  rename_i hroom
  have hfit : st.out.length + block.length ≤ maxOut := Nat.le_of_not_lt hroom
  obtain ⟨dataEnd, -, hclose⟩ := bind_eq_ok.mp hclose
  obtain ⟨stop, -, hclose⟩ := bind_eq_ok.mp hclose
  obtain ⟨next, -, hclose⟩ := bind_eq_ok.mp hclose
  obtain ⟨storedCheck, -, hclose⟩ := bind_eq_ok.mp hclose
  obtain ⟨used, -, hclose⟩ := bind_eq_ok.mp hclose
  obtain ⟨unpadded, -, hclose⟩ := bind_eq_ok.mp hclose
  have hplain : (st.out ++ block).length = st.out.length + block.length := List.length_append
  split at hclose
  · rename_i kind start hbcj
    split at hclose
    · cases hclose
      exact ⟨hplain, hplain ▸ hfit⟩
    · obtain ⟨converted, hconverted, hclose⟩ := bind_eq_ok.mp hclose
      obtain ⟨_, -, hclose⟩ := bind_eq_ok.mp hclose
      cases hclose
      have hlen := (decode_keeps kind start block hblock).safe.of_eq hconverted
      rw [List.length_append, hlen]
      exact ⟨rfl, hfit⟩
  · obtain ⟨_, -, hclose⟩ := bind_eq_ok.mp hclose
    cases hclose
    exact ⟨hplain, hplain ▸ hfit⟩

section Held

variable {codecs : Codecs} {stream flags : Bytes} {maxOut : Nat} {runFilter : Bool}
  {check sizeByte : UInt8} {checkLen turns : Nat} {st : Progress}

/-- **A block's sink and the output before it** are one byte past the bound at most. -/
theorem below_readBlock (hmax : maxOut < isizeMax) (hst : st.out.length ≤ maxOut) :
    Below (maxOut + 1) (·.out.length ≤ maxOut)
      (readBlockM codecs stream maxOut runFilter check checkLen st sizeByte) := by
  have hlimit : saturatingAdd (maxOut - st.out.length) 1 = maxOut - st.out.length + 1 :=
    saturatingAdd_eq (by unfold isizeMax wordSize at *; omega)
  have hopen : Below (maxOut + 1) (fun _ => True)
      (liftM (openBlock codecs stream st sizeByte) : Metered Error _) :=
    below_lift fun _ _ => trivial
  refine hopen.bind fun ⟨h, dataStart, payload⟩ _ => ?_
  have hsink := below_decodeLzma2 codecs payload
    (Nat.le_refl (saturatingAdd (maxOut - st.out.length) 1))
  refine (hsink.above (by omega)).bind fun ⟨block, consumed⟩ hblock => below_lift fun st' h => ?_
  have hblock : block.length ≤ saturatingAdd (maxOut - st.out.length) 1 := hblock
  exact (closeBlock_length (by unfold isizeMax wordSize at *; omega) h).2

theorem covers_readBlock :
    Covers st.out.length (·.out.length)
      (readBlockM codecs stream maxOut runFilter check checkLen st sizeByte) := by
  have hopen : Covers st.out.length (fun _ => st.out.length)
      (liftM (openBlock codecs stream st sizeByte) : Metered Error _) :=
    covers_of_le fun _ _ => Nat.le_refl _
  refine hopen.bind fun ⟨h, dataStart, payload⟩ _ => ?_
  refine (covers_decodeLzma2 codecs payload _).above.bind fun ⟨block, consumed⟩ hdecode => ?_
  refine covers_of_le fun st' hclose => Nat.le_of_eq ?_
  have hblock : block.length ≤ saturatingAdd (maxOut - st.out.length) 1 :=
    (below_decodeLzma2 codecs payload (Nat.le_refl _)).value _ hdecode
  exact (closeBlock_length (Nat.lt_of_le_of_lt hblock (saturatingAdd_lt _ _)) hclose).1

/-- **So it is over the whole stream.** -/
theorem below_readBlocks (hmax : maxOut < isizeMax) (hst : st.out.length ≤ maxOut) :
    Below (maxOut + 1) (·.length ≤ maxOut)
      (readBlocksM codecs stream maxOut runFilter flags check checkLen turns st) := by
  induction turns generalizing st with
  | zero => exact below_lift nofun
  | succ turns ih =>
    have hlift : ∀ {α : Type} (x : Res α), Below (maxOut + 1) (fun _ => True)
        (liftM x : Metered Error α) := fun x => below_lift fun _ _ => trivial
    refine (hlift _).bind fun sizeByte _ => below_ite (fun _ => ?_) fun _ => ?_
    · exact (hlift _).bind fun _ _ => (hlift _).bind fun _ _ => below_pure hst
    · exact (below_readBlock hmax hst).bind fun st' hst' => ih hst'

theorem covers_readBlocks :
    Covers st.out.length (·.length)
      (readBlocksM codecs stream maxOut runFilter flags check checkLen turns st) := by
  induction turns generalizing st with
  | zero => exact covers_of_le nofun
  | succ turns ih =>
    have hlift : ∀ {α : Type} (x : Res α), Covers st.out.length (fun _ => st.out.length)
        (liftM x : Metered Error α) := fun x => covers_of_le fun _ _ => Nat.le_refl _
    refine (hlift _).bind fun sizeByte _ => covers_ite (fun _ => ?_) fun _ => ?_
    · refine (hlift _).bind fun _ _ => (hlift _).bind fun _ _ => covers_of_le fun out hout => ?_
      cases hout
      exact Nat.le_refl _
    · exact covers_readBlock.bind fun st' _ => ih

theorem below_decompress (codecs : Codecs) (stream : Bytes) (hmax : maxOut < isizeMax) :
    Below (maxOut + 1) (·.length ≤ maxOut) (decompressM codecs stream maxOut) := by
  have hheader : Below (maxOut + 1) (fun _ => True)
      (liftM (readStreamHeader codecs stream) : Metered Error _) := below_lift fun _ _ => trivial
  exact hheader.bind fun _ _ => below_readBlocks hmax (Nat.zero_le _)

theorem covers_decompress (codecs : Codecs) (stream : Bytes) (maxOut : Nat) :
    Covers 0 (·.length) (decompressM codecs stream maxOut) := by
  have hheader : Covers 0 (fun _ => 0)
      (liftM (readStreamHeader codecs stream) : Metered Error _) :=
    covers_of_le fun _ _ => Nat.le_refl _
  exact hheader.bind fun _ _ => covers_readBlocks

end Held

end Squashfs.Xz
