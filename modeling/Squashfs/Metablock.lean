import Squashfs.Foundation.Grammar
import Squashfs.Superblock

/-!
# Metadata blocks

Model of `src/metablock.rs`: `read_block_uncached` (167-195), `MetadataRef` (208-253) and
`MetaCursor` (283-410). The cache in front, `MetaCache` (66-138), is `Cache`'s.

A metadata block is a two-byte header and a payload, stored raw or compressed; `readBlockUncached`
decodes the one at an offset and says where the next begins. The reader asks for blocks through its
caches, so its programs ask `Req` questions (`readBlock`) and `Foundation/Query.lean` runs them.

`MetaCursor` presents consecutive blocks as one stream of bytes, pulling a block when the reader
runs out. Its window is one buffer here; that the source shares it with the cache until a block ends
(`Window`, 267-281) is `CursorStream`'s. **`keeps_readExact`**: no cursor read panics or loops,
whatever the blocks hold.

Out of scope: `read_i16` (397-399), which nothing calls.
-/

namespace Squashfs

open Foundation

/-! ## One block -/

def UNCOMPRESSED_BIT : UInt16 := 0x8000

def SIZE_MASK : UInt16 := 0x7FFF

/-- The bytes of a block whose header is `raw` and whose payload is `payload`. -/
def unpackBlock (codecs : Codecs) (sb : Superblock) (raw : UInt16) (payload : Bytes) :
    Res Bytes := do
  if raw &&& UNCOMPRESSED_BIT = 0 then
    decompress codecs (← sb.compressor) payload METADATA_SIZE
  else if METADATA_SIZE < payload.length then
    fails (.badMetadata "uncompressed metadata block too large")
  else return payload

/-- The decompressed block whose header is at `abs`, and the offset of the next one. -/
def readBlockUncached (codecs : Codecs) (dev : Device) (sb : Superblock) (abs : Nat) :
    Res (Bytes × Nat) := do
  let hdr ← dev.read abs 2
  let raw := u16le hdr
  let onDisk := (raw &&& SIZE_MASK).toNat
  if onDisk = 0 ∨ METADATA_SIZE < onDisk then
    fails (.badMetadata "metadata block size out of range")
  else
    let payload ← dev.read (← add64 abs 2) onDisk
    let out ← unpackBlock codecs sb raw payload
    return (out, ← add64 (← add64 abs 2) onDisk)

/-! ## Asking for blocks -/

/-- A block the reader asks for: a metadata block by its offset, a data block by its offset, size
word and output bound. -/
inductive Req where
  | block (abs : Nat)
  | data (abs : Nat) (sizeWord : UInt32) (maxOut : Nat)
  deriving Repr, DecidableEq

/-- What a cache holds for a request: a metadata block with the offset of the next, or the bytes
of a data block. -/
abbrev Req.Value : Req → Type
  | .block _ => Bytes × Nat
  | .data .. => Bytes

/-- The answer to a request. -/
abbrev Reply (q : Req) := Outcome Error q.Value

/-- A program of the reader. -/
abbrev Prog (α : Type) := Asking Req Reply Error α

/-- `read_block` with a cache. -/
def readBlock (abs : Nat) : Prog (Bytes × Nat) := ExceptT.mk (Query.ask (.block abs) .ret)

@[simp] theorem exec_readBlock (f : ∀ q, Reply q) (abs : Nat) :
    Asking.exec f (readBlock abs) = f (.block abs) := rfl

/-! ## References and the cursor -/

/-- A metadata reference: which block, and where inside it. -/
structure MetadataRef where
  blockOffset : UInt64
  inBlock : UInt16
  deriving Repr, DecidableEq

/-- Split a packed reference: the high 48 bits and the low 16. -/
def MetadataRef.fromPacked (packed : UInt64) : MetadataRef :=
  ⟨packed >>> 16, (packed &&& 0xFFFF).toUInt16⟩

/-- The offset of the block, given where its table starts. -/
def MetadataRef.startAbs (r : MetadataRef) (tableStart : UInt64) : Nat :=
  saturatingAdd tableStart.toNat r.blockOffset.toNat

/-- A flat reader over consecutive metadata blocks. -/
structure MetaCursor where
  /-- The next block to pull. -/
  nextAbs : Nat
  /-- The window onto decompressed bytes. -/
  buf : Bytes
  pos : Nat
  /-- No block from this offset on belongs to the table, and the error if one is asked for. -/
  limit : Option (Nat × String)
  deriving Repr, DecidableEq

/-- A method of the cursor. -/
abbrev CurM (α : Type) := Stateful Req Reply Error MetaCursor α

namespace MetaCursor

/-- A cursor `inBlock` bytes into the block at `startAbs`. -/
def new (startAbs : Nat) (inBlock : UInt16) : Prog MetaCursor := do
  let (block, next) ← readBlock startAbs
  if block.length < inBlock.toNat then
    throw (.err (.badMetadata "metadata reference offset past block end"))
  else return ⟨next, block, inBlock.toNat, none⟩

/-- Refuse to pull a block at or past `stop`. -/
def withLimit (cur : MetaCursor) (stop : Nat) (why : String) : MetaCursor :=
  { cur with limit := some (stop, why) }

/-- Whether the limit lets the block at `abs` be pulled. -/
def checkLimit (limit : Option (Nat × String)) (abs : Nat) : Res Unit :=
  match limit with
  | some (stop, why) => if stop ≤ abs then fails (.badMetadata why) else return ()
  | none => return ()

/-- Pull one more block onto the tail of the window. -/
def refill : CurM Unit := do
  let cur ← get
  checkLimit cur.limit cur.nextAbs
  let (block, next) ← Stateful.ofAsking (readBlock cur.nextAbs)
  if block.isEmpty then
    throw (.err (.badMetadata "empty metadata block while reading record"))
  else
    let rest ← (sliceFrom cur.buf cur.pos : Res Bytes)
    set { cur with nextAbs := next, buf := rest ++ block, pos := 0 }

/-- `buf.len() - pos`. -/
def unread (cur : MetaCursor) : Res Nat := sub64 cur.buf.length cur.pos

/-- `while unread < n`. -/
def ensureLoop (n : Nat) : Nat → CurM Unit
  | 0 => do
    let cur ← get
    if (← unread cur) < n then throw .diverge else pure ()
  | turns + 1 => do
    let cur ← get
    if (← unread cur) < n then
      refill
      ensureLoop n turns
    else pure ()

/-- Make at least `n` unread bytes available. -/
def ensure (n : Nat) : CurM Unit := ensureLoop n n

/-- `buf[pos..pos + n]`, and the cursor past it. -/
def take (cur : MetaCursor) (n : Nat) : Res (Bytes × MetaCursor) := do
  let stop ← add64 cur.pos n
  let out ← slice cur.buf cur.pos stop
  return (out, { cur with pos := stop })

/-- Read exactly `n` bytes. -/
def readExact (n : Nat) : CurM Bytes := do
  ensure n
  let (out, cur) ← take (← get) n
  set cur
  return out

/-- `u16::from_le_bytes([b[0], b[1]])`. -/
def u16Of (b : Bytes) : Res UInt16 := do
  return u16le [← index b 0, ← index b 1]

/-- `u32::from_le_bytes([b[0], b[1], b[2], b[3]])`. -/
def u32Of (b : Bytes) : Res UInt32 := do
  return u32le [← index b 0, ← index b 1, ← index b 2, ← index b 3]

/-- `u64::from_le_bytes(b.try_into().unwrap())`. -/
def u64Of (b : Bytes) : Res UInt64 := do
  return u64le (← array 8 b)

def readU16 : CurM UInt16 := do
  let b ← readExact 2
  u16Of b

def readU32 : CurM UInt32 := do
  let b ← readExact 4
  u32Of b

def readU64 : CurM UInt64 := do
  let b ← readExact 8
  u64Of b

end MetaCursor

/-! ## A block returns -/

theorem safe_unpackBlock (codecs : Codecs) (sb : Superblock) (raw : UInt16) {payload : Bytes}
    (h : payload.length ≤ METADATA_SIZE) :
    Safe (·.length ≤ isizeMax) (unpackBlock codecs sb raw payload) := by
  have hsmall : payload.length ≤ isizeMax := by
    unfold METADATA_SIZE isizeMax at *
    omega
  unfold unpackBlock
  refine safe_ite (fun _ => ?_) fun _ => safe_ite (fun _ => trivial) fun _ => hsmall
  refine safe_bind ((returns_compressorFromId _).safe (P := fun _ => True) fun _ _ => trivial)
    fun comp _ => ?_
  exact (safe_decompress codecs comp hsmall (by decide)).mono fun out hout => hout.1

/-- **A metadata block's decoding returns**, and the next block lies further on. -/
theorem safe_readBlockUncached (codecs : Codecs) (dev : Device) (sb : Superblock) (abs : Nat) :
    Safe (fun r => r.1.length ≤ isizeMax ∧ abs < r.2 ∧ r.2 ≤ dev.sizeBytes)
      (readBlockUncached codecs dev sb abs) := by
  have hsize := dev.size_lt
  unfold readBlockUncached
  refine safe_bind ((dev.returns_read abs 2).safe fun _ h => dev.le_of_read h (by decide))
    fun hdr hend => ?_
  dsimp only
  generalize (u16le hdr &&& SIZE_MASK).toNat = onDisk
  refine safe_ite (fun _ => trivial) fun hrange => ?_
  rw [not_or, Nat.not_lt] at hrange
  rw [add64_ok (by omega), ok_bind]
  refine safe_bind ((dev.returns_read _ onDisk).safe fun _ h =>
    And.intro (dev.length_of_read h) (dev.le_of_read h (Nat.pos_of_ne_zero hrange.1)))
    fun payload hpayload => ?_
  refine safe_bind (safe_unpackBlock codecs sb _ (hpayload.1 ▸ hrange.2)) fun out hout => ?_
  rw [ok_bind, add64_ok (by omega), ok_bind]
  exact ⟨hout, by dsimp only; omega, hpayload.2⟩

/-! ## The cursor returns -/

/-- Answers that return, in blocks of real size. -/
structure Tame (f : ∀ q, Reply q) : Prop where
  block : ∀ abs, Safe (fun r => r.1.length ≤ isizeMax) (f (.block abs))
  data : ∀ abs sizeWord maxOut, maxOut < isizeMax →
    Safe (·.length ≤ isizeMax) (f (.data abs sizeWord maxOut))

/-- The most bytes one read asks for. -/
def maxRead : Nat := 2 ^ 32

namespace MetaCursor

/-- The cursor stands inside its window, and the window is of real size. -/
structure Good (cur : MetaCursor) : Prop where
  inside : cur.pos ≤ cur.buf.length
  small : cur.buf.length ≤ isizeMax + maxRead

variable {f : ∀ q, Reply q}

theorem safe_new (hf : Tame f) (startAbs : Nat) (inBlock : UInt16) :
    Safe Good (Asking.exec f (new startAbs inBlock)) := by
  unfold new
  rw [Asking.exec_bind, exec_readBlock]
  refine safe_bind (hf.block startAbs) fun ⟨block, next⟩ hblock => ?_
  have hblock : block.length ≤ isizeMax := hblock
  dsimp only
  rw [Asking.exec_ite]
  refine safe_ite (fun _ => trivial) fun hle => ?_
  exact ⟨Nat.le_of_not_lt hle, Nat.le_trans hblock (Nat.le_add_right _ _)⟩

theorem withLimit_good {cur : MetaCursor} (h : cur.Good) (stop : Nat) (why : String) :
    (cur.withLimit stop why).Good := ⟨h.inside, h.small⟩

/-- What a refill does: nothing on a failure, and otherwise the unread bytes and the next block
become the window. -/
theorem exec_refill (cur : MetaCursor) (h : cur.pos ≤ cur.buf.length) :
    Stateful.exec f refill cur =
      match checkLimit cur.limit cur.nextAbs, f (.block cur.nextAbs) with
      | .error e, _ => (.error e, cur)
      | .ok _, .error e => (.error e, cur)
      | .ok _, .ok (block, next) =>
        if block.isEmpty then
          (.error (.err (.badMetadata "empty metadata block while reading record")), cur)
        else (.ok (), { cur with nextAbs := next, buf := cur.buf.drop cur.pos ++ block, pos := 0 })
    := by
  unfold refill
  rw [Stateful.exec_bind, Stateful.exec_get]
  dsimp only
  rw [Stateful.exec_bind, Stateful.exec_lift]
  cases checkLimit cur.limit cur.nextAbs with
  | error e => rfl
  | ok u =>
    dsimp only
    rw [Stateful.exec_bind, Stateful.exec_ofAsking, exec_readBlock]
    cases f (.block cur.nextAbs) with
    | error e => rfl
    | ok r =>
      dsimp only
      split
      · rfl
      · rw [sliceFrom_ok h]
        rfl

/-- A refill keeps a good cursor good when it is short of bytes. -/
theorem refill_keeps (hf : Tame f) {cur : MetaCursor} (h : cur.Good)
    (hshort : cur.buf.length - cur.pos < maxRead) :
    Safe (fun _ => cur.buf.length - cur.pos <
        (Stateful.exec f refill cur).2.buf.length - (Stateful.exec f refill cur).2.pos)
      (Stateful.exec f refill cur).1 ∧ (Stateful.exec f refill cur).2.Good := by
  rw [exec_refill cur h.inside]
  have hblock := hf.block cur.nextAbs
  have hlimit : Returns (checkLimit cur.limit cur.nextAbs) := by
    unfold checkLimit
    split
    · split <;> trivial
    · trivial
  cases hl : checkLimit cur.limit cur.nextAbs with
  | error e => rw [hl] at hlimit; exact ⟨hlimit, h⟩
  | ok u =>
    cases hb : f (.block cur.nextAbs) with
    | error e => rw [hb] at hblock; exact ⟨hblock, h⟩
    | ok r =>
      rw [hb] at hblock
      have hsmall : r.1.length ≤ isizeMax := hblock
      have hrest : (cur.buf.drop cur.pos).length = cur.buf.length - cur.pos := List.length_drop
      dsimp only
      by_cases hempty : r.1.isEmpty
      · rw [if_pos hempty]
        exact ⟨trivial, h⟩
      · have hpos : 0 < r.1.length := by
          rw [List.isEmpty_iff] at hempty
          exact List.length_pos_of_ne_nil hempty
        rw [if_neg hempty]
        refine ⟨?_, ⟨Nat.zero_le _, ?_⟩⟩
        · show _ < (cur.buf.drop cur.pos ++ r.1).length - 0
          rw [List.length_append]
          omega
        · show (cur.buf.drop cur.pos ++ r.1).length ≤ _
          rw [List.length_append]
          omega

theorem unread_ok {cur : MetaCursor} (h : cur.pos ≤ cur.buf.length) :
    unread cur = .ok (cur.buf.length - cur.pos) := sub64_ok h

/-- One turn of `ensure`. -/
theorem exec_ensureLoop_succ {n turns : Nat} {cur : MetaCursor} (h : cur.pos ≤ cur.buf.length) :
    Stateful.exec f (ensureLoop n (turns + 1)) cur =
      if cur.buf.length - cur.pos < n then
        Stateful.exec f (do refill; ensureLoop n turns) cur
      else (.ok (), cur) := by
  rw [ensureLoop, Stateful.exec_bind, Stateful.exec_get]
  dsimp only
  rw [Stateful.exec_bind, Stateful.exec_lift, unread_ok h]
  dsimp only
  split <;> rfl

theorem exec_ensureLoop_zero {n : Nat} {cur : MetaCursor} (h : cur.pos ≤ cur.buf.length)
    (hn : n ≤ cur.buf.length - cur.pos) :
    Stateful.exec f (ensureLoop n 0) cur = (.ok (), cur) := by
  rw [ensureLoop, Stateful.exec_bind, Stateful.exec_get]
  dsimp only
  rw [Stateful.exec_bind, Stateful.exec_lift, unread_ok h]
  dsimp only
  rw [if_neg (by omega)]
  rfl

/-- `n` turns are enough: each refill adds a byte at least. -/
theorem ensureLoop_keeps (hf : Tame f) {n turns : Nat} (hn : n ≤ maxRead) {cur : MetaCursor}
    (h : cur.Good) (hturns : n ≤ turns + (cur.buf.length - cur.pos)) :
    Safe (fun _ => n ≤ (Stateful.exec f (ensureLoop n turns) cur).2.buf.length -
        (Stateful.exec f (ensureLoop n turns) cur).2.pos)
      (Stateful.exec f (ensureLoop n turns) cur).1 ∧
      (Stateful.exec f (ensureLoop n turns) cur).2.Good := by
  induction turns generalizing cur with
  | zero =>
    rw [exec_ensureLoop_zero h.inside (by omega)]
    exact ⟨by simp only [safe_ok]; omega, h⟩
  | succ turns ih =>
    rw [exec_ensureLoop_succ h.inside]
    by_cases hshort : cur.buf.length - cur.pos < n
    · rw [if_pos hshort]
      obtain ⟨h1, h2⟩ := refill_keeps hf h (by omega)
      rw [Stateful.exec_bind]
      rcases hrun : Stateful.exec f refill cur with ⟨x, cur'⟩
      rw [hrun] at h1 h2
      cases x with
      | error e => exact ⟨h1, h2⟩
      | ok u =>
        exact ih h2 (by simp only [safe_ok] at h1; omega)
    · rw [if_neg hshort]
      exact ⟨by simp only [safe_ok]; omega, h⟩

theorem take_ok {cur : MetaCursor} {n : Nat} (h : cur.Good) (hn : n ≤ maxRead)
    (hle : n ≤ cur.buf.length - cur.pos) :
    take cur n = .ok ((cur.buf.drop cur.pos).take n, { cur with pos := cur.pos + n }) := by
  have h1 := h.inside
  have h2 := h.small
  unfold take
  rw [add64_ok (by unfold isizeMax maxRead wordSize at *; omega), ok_bind,
    slice_window_ok (by omega), ok_bind]
  rfl

/-- **A read returns**, its result has the length asked for, and the cursor stays good. -/
theorem keeps_readExact (hf : Tame f) {n : Nat} (hn : n ≤ maxRead) :
    Keeps f Good (·.length = n) (readExact n) := by
  intro cur h
  obtain ⟨h1, h2⟩ := ensureLoop_keeps hf hn h (Nat.le_add_right _ _)
  unfold readExact ensure
  rw [Stateful.exec_bind]
  rcases hrun : Stateful.exec f (ensureLoop n n) cur with ⟨x, cur'⟩
  rw [hrun] at h1 h2
  cases x with
  | error e => exact ⟨h1, h2⟩
  | ok u =>
    have hle : n ≤ cur'.buf.length - cur'.pos := h1
    have h2 : cur'.Good := h2
    dsimp only
    rw [Stateful.exec_bind, Stateful.exec_get]
    dsimp only
    rw [Stateful.exec_bind, Stateful.exec_lift, take_ok h2 hn hle]
    have hin : cur'.pos ≤ cur'.buf.length := h2.inside
    refine ⟨window_length (by omega), ⟨?_, h2.small⟩⟩
    show cur'.pos + n ≤ cur'.buf.length
    omega

theorem u16Of_eq {b : Bytes} (h : b.length = 2) : u16Of b = .ok (u16le b) := by
  obtain ⟨b0, b1, rfl⟩ := List.length_eq_two.mp h
  rfl

theorem u32Of_eq {b : Bytes} (h : b.length = 4) : u32Of b = .ok (u32le b) := by
  match b, h with
  | [b0, b1, b2, b3], _ => rfl

theorem u64Of_eq {b : Bytes} (h : b.length = 8) : u64Of b = .ok (u64le b) := by
  unfold u64Of
  rw [array_ok h]
  rfl

theorem keeps_readU16 (hf : Tame f) : Keeps f Good (fun _ => True) readU16 :=
  keeps_bind (keeps_readExact hf (by decide)) fun b hb =>
    keeps_lift (by rw [u16Of_eq hb]; trivial)

theorem keeps_readU32 (hf : Tame f) : Keeps f Good (fun _ => True) readU32 :=
  keeps_bind (keeps_readExact hf (by decide)) fun b hb =>
    keeps_lift (by rw [u32Of_eq hb]; trivial)

theorem keeps_readU64 (hf : Tame f) : Keeps f Good (fun _ => True) readU64 :=
  keeps_bind (keeps_readExact hf (by decide)) fun b hb =>
    keeps_lift (by rw [u64Of_eq hb]; trivial)

end MetaCursor

end Squashfs
