import Squashfs.Error

/-!
# The branch converters

Model of `Bcj` (`src/xz.rs:29-70`), `decode` and the six converters (383-559). A branch-call-jump
converter undoes, over a whole block, what an encoder did to the targets of branch instructions:
`decode kind start buf` for a block that began at stream position `start`. The six converters are
x86 (394-450), PowerPC (452-464), IA-64 (466-503), ARM (505-519), ARM-Thumb (521-544) and SPARC
(546-559); each is a scan over the buffer, the fixed-pattern ones in steps of their alignment, x86
byte by byte with a memory of the opcodes it passed (`prevMask`) and an inner loop that corrects its
own address.

**`decode_keeps`**: every converter, on every buffer and start, ends (the inner loop of x86 after at
most two turns, `x86Dest_ok`), fires no guard, and leaves the buffer's length as it was.
-/

namespace Squashfs.Xz

open Foundation

/-- The branch converters, by xz filter id. -/
inductive Bcj where
  | x86
  | powerPc
  | ia64
  | arm
  | armThumb
  | sparc
  deriving Repr, DecidableEq

/-- `Bcj::from_id`. -/
def Bcj.fromId (id : UInt64) : Res Bcj :=
  if id = 0x04 then .ok .x86
  else if id = 0x05 then .ok .powerPc
  else if id = 0x06 then .ok .ia64
  else if id = 0x07 then .ok .arm
  else if id = 0x08 then .ok .armThumb
  else if id = 0x09 then .ok .sparc
  else if id = 0x0A then fails (.badMetadata "xz: the ARM64 BCJ filter is not implemented")
  else if id = 0x0B then fails (.badMetadata "xz: the RISC-V BCJ filter is not implemented")
  else if id = 0x03 then fails (.badMetadata "xz: the delta filter is not implemented")
  else fails (.badMetadata "xz: unknown filter in the block's chain")

/-- What a converter's start offset is a multiple of. -/
def Bcj.alignment : Bcj → Nat
  | .x86 => 1
  | .armThumb => 2
  | .powerPc => 4
  | .arm => 4
  | .sparc => 4
  | .ia64 => 16

/-- `(0..size).step_by(k)`. -/
def stepBy (size k : Nat) : List Nat := (List.range ((size + k - 1) / k)).map (· * k)

/-! ## x86 -/

def ALLOWED : List Bool := [true, true, true, false, true, false, false, false]

def BIT_NUM : List Nat := [0, 1, 2, 2, 3, 3, 3, 3]

def msbyte (b : UInt8) : Bool := b == 0x00 || b == 0xFF

/-- The state of the x86 scan. -/
structure X86 where
  buf : Bytes
  prevPos : Nat
  prevMask : UInt32
  i : Nat

/-- The inner loop: the converted address, corrected until the byte the mask points at is not a
sign byte. `addr` is the position after the instruction. -/
def x86Dest (addr prevMask : UInt32) : Nat → UInt32 → Res UInt32
  | 0, _ => .error .diverge
  | turns + 1, src => do
    let dest := src - addr
    if prevMask = 0 then return dest
    let j := (← index BIT_NUM prevMask.toNat) * 8
    let b := (← shr32 dest (← sub64 24 j)).toUInt8
    if ¬ msbyte b then return dest
    let low ← sub64 (← shl32 1 (← sub64 32 j)).toNat 1
    x86Dest addr prevMask turns (dest ^^^ UInt32.ofNat low)

/-- The conversion of the instruction at `s.i`, whose operand's last byte is a sign byte. -/
def x86Convert (start : UInt32) (s : X86) : Res X86 := do
  let src ← u32At s.buf (← add64 s.i 1)
  let dest ← x86Dest (start + UInt32.ofNat s.i + 5) s.prevMask 2 src
  let dest := dest &&& 0x01FFFFFF
  let dest := dest ||| (0 - (dest &&& 0x01000000))
  let buf ← copyInto s.buf (← add64 s.i 1) (u32Bytes dest)
  return { s with buf, i := ← add64 s.i 5 }

/-- The opcode at `s.i` is only remembered. -/
def x86Remember (s : X86) : Res X86 := do
  return { s with prevMask := (s.prevMask <<< 1) ||| 1, i := ← add64 s.i 1 }

/-- What of the remembered opcodes still matters `gap` bytes after the last one. -/
def x86Mask (gap : Nat) (prevMask : UInt32) : Res UInt32 :=
  if 3 < gap then return 0
  else do
    let mask ← shl32 prevMask (← sub64 gap 1)
    return mask &&& 7

/-- Whether the remembered opcodes rule out a conversion at `i`. -/
def x86Barred (buf : Bytes) (i : Nat) (prevMask : UInt32) : Res Bool := do
  if prevMask = 0 then return false
  let n ← index BIT_NUM prevMask.toNat
  let b ← index buf (← sub64 (← add64 i 4) n)
  let allowed ← index ALLOWED prevMask.toNat
  return !allowed || msbyte b

/-- One turn of the scan. -/
def x86Step (start : UInt32) (s : X86) : Res X86 := do
  let op ← index s.buf s.i
  if op &&& 0xFE ≠ 0xE8 then
    return { s with i := ← add64 s.i 1 }
  let prevMask ← x86Mask ((s.i + wordSize - s.prevPos) % wordSize) s.prevMask
  let barred ← x86Barred s.buf s.i prevMask
  if barred then x86Remember { s with prevPos := s.i, prevMask }
  else
    let b ← index s.buf (← add64 s.i 4)
    if msbyte b then x86Convert start { s with prevPos := s.i, prevMask }
    else x86Remember { s with prevPos := s.i, prevMask }

/-- `while i < size`. -/
def x86Loop (start : UInt32) (size : Nat) : Nat → X86 → Res Bytes
  | 0, s => if s.i < size then .error .diverge else .ok s.buf
  | turns + 1, s =>
    if s.i < size then do x86Loop start size turns (← x86Step start s)
    else .ok s.buf

def x86 (start : UInt32) (buf : Bytes) : Res Bytes := do
  if buf.length ≤ 4 then return buf
  let size ← sub64 buf.length 4
  x86Loop start size size ⟨buf, wordSize - 1, 0, 0⟩

/-! ## PowerPC -/

/-- `u32::from_be_bytes(buf[i..i + 4].try_into().unwrap())`. -/
def u32BeAt (buf : Bytes) (i : Nat) : Res UInt32 := do
  let s ← slice buf i (← add64 i 4)
  return u32be (← array 4 s)

def powerpcStep (start : UInt32) (buf : Bytes) (i : Nat) : Res Bytes := do
  let instr ← u32BeAt buf i
  if instr &&& 0xFC000003 = 0x48000001 then
    let instr := instr &&& 0x03FFFFFC
    let instr := instr - (start + UInt32.ofNat i)
    let instr := instr &&& 0x03FFFFFC
    let instr := instr ||| 0x48000001
    copyInto buf i (u32BytesBe instr)
  else return buf

def powerpc (start : UInt32) (buf : Bytes) : Res Bytes :=
  (stepBy (buf.length - buf.length % 4) 4).foldlM (powerpcStep start) buf

/-! ## IA-64 -/

def BRANCH_TABLE : List UInt32 :=
  [0, 0, 0, 0, 0, 0, 0, 0, 0, 0, 0, 0, 0, 0, 0, 0, 4, 4, 6, 6, 0, 0, 7, 7, 4, 4, 0, 0, 4, 4, 0, 0]

/-- The six bytes from `at`, least significant first. -/
def ia64Load (buf : Bytes) (pos : Nat) : Res UInt64 :=
  (List.range 6).foldlM (fun instr j => do
    return instr ||| ((← index buf (← add64 pos j)).toUInt64 <<< UInt64.ofNat (8 * j))) 0

/-- The low six bytes of `instr`, written from `at` on. -/
def ia64Store (buf : Bytes) (pos : Nat) (instr : UInt64) : Res Bytes :=
  (List.range 6).foldlM (fun buf j => do
    store buf (← add64 pos j) (instr >>> UInt64.ofNat (8 * j)).toUInt8) buf

/-- One slot of the bundle at `i`: the slot's bits begin at bit `5 + 41 * slot`. -/
def ia64Slot (start : UInt32) (i : Nat) (mask : UInt32) (buf : Bytes) (slot : Nat) : Res Bytes := do
  if (mask >>> UInt32.ofNat slot) &&& 1 = 0 then return buf
  let bitPos := 5 + 41 * slot
  let bytePos := bitPos / 8
  let bitRes := bitPos % 8
  let pos ← add64 i bytePos
  let instr ← ia64Load buf pos
  let norm ← shr64 instr bitRes
  if (norm >>> 37) &&& 0x0F = 0x05 ∧ (norm >>> 9) &&& 0x07 = 0 then
    let addr := ((norm >>> 13) &&& 0x0FFFFF).toUInt32
    let addr := addr ||| (((norm >>> 36) &&& 1).toUInt32 <<< 20)
    let addr := addr <<< 4
    let addr := addr - (start + UInt32.ofNat i)
    let addr := addr >>> 4
    let norm := norm &&& ~~~((0x8FFFFF : UInt64) <<< 13)
    let norm := norm ||| ((addr &&& 0x0FFFFF).toUInt64 <<< 13)
    let norm := norm ||| ((addr &&& 0x100000).toUInt64 <<< 16)
    let low ← sub64 (← shl64 1 bitRes).toNat 1
    let instr := instr &&& UInt64.ofNat low
    let instr := instr ||| (← shl64 norm bitRes)
    ia64Store buf pos instr
  else return buf

def ia64Step (start : UInt32) (buf : Bytes) (i : Nat) : Res Bytes := do
  let mask ← index BRANCH_TABLE ((← index buf i) &&& 0x1F).toNat
  (List.range 3).foldlM (ia64Slot start i mask) buf

def ia64 (start : UInt32) (buf : Bytes) : Res Bytes :=
  (stepBy (buf.length - buf.length % 16) 16).foldlM (ia64Step start) buf

/-! ## ARM, ARM-Thumb and SPARC -/

def armStep (start : UInt32) (buf : Bytes) (i : Nat) : Res Bytes := do
  if (← index buf (← add64 i 3)) = 0xEB then
    let b0 ← index buf i
    let b1 ← index buf (← add64 i 1)
    let b2 ← index buf (← add64 i 2)
    let addr := b0.toUInt32 ||| (b1.toUInt32 <<< 8) ||| (b2.toUInt32 <<< 16)
    let addr := addr <<< 2
    let addr := addr - (start + UInt32.ofNat i + 8)
    let addr := addr >>> 2
    let buf ← store buf i addr.toUInt8
    let buf ← store buf (← add64 i 1) (addr >>> 8).toUInt8
    store buf (← add64 i 2) (addr >>> 16).toUInt8
  else return buf

def arm (start : UInt32) (buf : Bytes) : Res Bytes :=
  (stepBy (buf.length - buf.length % 4) 4).foldlM (armStep start) buf

/-- One turn of the ARM-Thumb scan: the buffer, and where the next turn is. -/
def armthumbStep (start : UInt32) (buf : Bytes) (i : Nat) : Res (Bytes × Nat) := do
  let b1 ← index buf (← add64 i 1)
  if b1 &&& 0xF8 ≠ 0xF0 then return (buf, ← add64 i 2)
  let b3 ← index buf (← add64 i 3)
  if b3 &&& 0xF8 ≠ 0xF8 then return (buf, ← add64 i 2)
  let b0 ← index buf i
  let b2 ← index buf (← add64 i 2)
  let addr := ((b1.toUInt32 &&& 0x07) <<< 19) ||| (b0.toUInt32 <<< 11) |||
    ((b3.toUInt32 &&& 0x07) <<< 8) ||| b2.toUInt32
  let addr := addr <<< 1
  let addr := addr - (start + UInt32.ofNat i + 4)
  let addr := addr >>> 1
  let buf ← store buf (← add64 i 1) ((0xF0 : UInt8) ||| ((addr >>> 19) &&& 0x07).toUInt8)
  let buf ← store buf i (addr >>> 11).toUInt8
  let buf ← store buf (← add64 i 3) ((0xF8 : UInt8) ||| ((addr >>> 8) &&& 0x07).toUInt8)
  let buf ← store buf (← add64 i 2) addr.toUInt8
  return (buf, ← add64 (← add64 i 2) 2)

/-- `while i <= size`. -/
def armthumbLoop (start : UInt32) (size : Nat) : Nat → Bytes → Nat → Res Bytes
  | 0, buf, i => if i ≤ size then .error .diverge else .ok buf
  | turns + 1, buf, i =>
    if i ≤ size then do
      let (buf, i) ← armthumbStep start buf i
      armthumbLoop start size turns buf i
    else .ok buf

def armthumb (start : UInt32) (buf : Bytes) : Res Bytes := do
  if buf.length < 4 then return buf
  let size ← sub64 buf.length 4
  armthumbLoop start size (size + 1) buf 0

def sparcStep (start : UInt32) (buf : Bytes) (i : Nat) : Res Bytes := do
  let instr ← u32BeAt buf i
  if instr >>> 22 = 0x100 ∨ instr >>> 22 = 0x1FF then
    let instr := instr <<< 2
    let instr := instr - (start + UInt32.ofNat i)
    let instr := instr >>> 2
    let instr := (0x40000000 - (instr &&& 0x400000)) ||| 0x40000000 ||| (instr &&& 0x3FFFFF)
    copyInto buf i (u32BytesBe instr)
  else return buf

def sparc (start : UInt32) (buf : Bytes) : Res Bytes :=
  (stepBy (buf.length - buf.length % 4) 4).foldlM (sparcStep start) buf

/-- Undo `kind`'s branch conversion over a block that began at stream position `start`. -/
def decode (kind : Bcj) (start : UInt32) (buf : Bytes) : Res Bytes :=
  match kind with
  | .x86 => x86 start buf
  | .powerPc => powerpc start buf
  | .ia64 => ia64 start buf
  | .arm => arm start buf
  | .armThumb => armthumb start buf
  | .sparc => sparc start buf

/-! ## Every converter keeps the length -/

/-- A four-byte window of a buffer of real size can be read. -/
theorem gives_u32BeAt {buf : Bytes} {i : Nat} (h : i + 4 ≤ buf.length)
    (hw : buf.length < wordSize) : Gives (fun _ => True) (u32BeAt buf i) := by
  unfold u32BeAt
  rw [add64_ok (by omega), ok_bind, slice_window_ok h, ok_bind, array_ok (window_length h)]
  exact gives_pure.mpr trivial

theorem gives_u32At {buf : Bytes} {i : Nat} (h : i + 4 ≤ buf.length)
    (hw : buf.length < wordSize) :
    Gives (· = u32le ((buf.drop i).take 4)) (u32At buf i : Res UInt32) :=
  ⟨_, u32At_ok h (by omega), rfl⟩

/-- The positions of a stepped scan have room for one step. -/
theorem stepBy_room {len k i : Nat} (hk : 0 < k) (hi : i ∈ stepBy (len - len % k) k) :
    i + k ≤ len := by
  obtain ⟨q, hq, rfl⟩ := List.mem_map.mp hi
  have hlt := List.mem_range.mp hq
  have hdm := Nat.div_add_mod len k
  have hsize : len - len % k = k * (len / k) := by omega
  have hup : (k * (len / k) + k - 1) / k = len / k := by
    rw [Nat.add_sub_assoc hk, Nat.mul_add_div hk, Nat.div_eq_of_lt (Nat.sub_lt hk Nat.one_pos),
      Nat.add_zero]
  rw [hsize, hup] at hlt
  have hmul : (q + 1) * k ≤ (len / k) * k := Nat.mul_le_mul_right k hlt
  rw [Nat.add_mul, Nat.one_mul] at hmul
  rw [Nat.mul_comm] at hdm
  omega

/-- A converter that scans in steps of `k` keeps the length when each step does. -/
theorem stepBy_keeps {step : Bytes → Nat → Res Bytes} {buf : Bytes} {k : Nat} (hk : 0 < k)
    (hstep : ∀ b i, b.length = buf.length → i + k ≤ buf.length →
      Gives (·.length = buf.length) (step b i)) :
    Gives (·.length = buf.length)
      ((stepBy (buf.length - buf.length % k) k).foldlM step buf) := by
  refine gives_foldlM rfl fun b i hi hb => hstep b i hb (stepBy_room hk hi)

theorem powerpcStep_keeps {start : UInt32} {buf : Bytes} {i : Nat} (h : i + 4 ≤ buf.length)
    (hw : buf.length < wordSize) : Gives (·.length = buf.length) (powerpcStep start buf i) := by
  unfold powerpcStep
  refine gives_bind (gives_u32BeAt h hw) fun instr _ => gives_ite (fun _ => ?_) fun _ => ?_
  · exact gives_copyInto (by rw [u32BytesBe_length]; exact h)
  · exact gives_pure.mpr rfl

theorem sparcStep_keeps {start : UInt32} {buf : Bytes} {i : Nat} (h : i + 4 ≤ buf.length)
    (hw : buf.length < wordSize) : Gives (·.length = buf.length) (sparcStep start buf i) := by
  unfold sparcStep
  refine gives_bind (gives_u32BeAt h hw) fun instr _ => gives_ite (fun _ => ?_) fun _ => ?_
  · exact gives_copyInto (by rw [u32BytesBe_length]; exact h)
  · exact gives_pure.mpr rfl

theorem armStep_keeps {start : UInt32} {buf : Bytes} {i : Nat} (h : i + 4 ≤ buf.length)
    (hw : buf.length < wordSize) : Gives (·.length = buf.length) (armStep start buf i) := by
  have a1 : (add64 i 1 : Res Nat) = .ok (i + 1) := add64_ok (by omega)
  have a2 : (add64 i 2 : Res Nat) = .ok (i + 2) := add64_ok (by omega)
  have a3 : (add64 i 3 : Res Nat) = .ok (i + 3) := add64_ok (by omega)
  simp only [armStep, a1, a2, a3, ok_bind]
  refine gives_bind (gives_index (by omega)) fun b3 _ => gives_ite (fun _ => ?_) fun _ => ?_
  · refine gives_bind (gives_index (by omega)) fun b0 _ => ?_
    refine gives_bind (gives_index (by omega)) fun b1 _ => ?_
    refine gives_bind (gives_index (by omega)) fun b2 _ => ?_
    refine gives_bind (gives_store (by omega)) fun buf₁ h₁ => ?_
    refine gives_bind (gives_store (by omega)) fun buf₂ h₂ => ?_
    exact (gives_store (by omega)).mono fun buf₃ h₃ => by omega
  · exact gives_pure.mpr rfl

/-! ### ARM-Thumb -/

theorem armthumbStep_keeps {start : UInt32} {buf : Bytes} {i : Nat} (h : i + 4 ≤ buf.length)
    (hw : buf.length < wordSize) :
    Gives (fun r => r.1.length = buf.length ∧ i < r.2) (armthumbStep start buf i) := by
  have a1 : (add64 i 1 : Res Nat) = .ok (i + 1) := add64_ok (by omega)
  have a2 : (add64 i 2 : Res Nat) = .ok (i + 2) := add64_ok (by omega)
  have a3 : (add64 i 3 : Res Nat) = .ok (i + 3) := add64_ok (by omega)
  have a4 : (add64 (i + 2) 2 : Res Nat) = .ok (i + 4) := add64_ok (by omega)
  simp only [armthumbStep, a1, a2, a3, a4, ok_bind]
  refine gives_bind (gives_index (by omega)) fun b1 _ => gives_ite (fun _ => ?_) fun _ => ?_
  · exact gives_pure.mpr ⟨rfl, by omega⟩
  refine gives_bind (gives_index (by omega)) fun b3 _ => gives_ite (fun _ => ?_) fun _ => ?_
  · exact gives_pure.mpr ⟨rfl, by omega⟩
  refine gives_bind (gives_index (by omega)) fun b0 _ => ?_
  refine gives_bind (gives_index (by omega)) fun b2 _ => ?_
  refine gives_bind (gives_store (by omega)) fun buf₁ h₁ => ?_
  refine gives_bind (gives_store (by omega)) fun buf₂ h₂ => ?_
  refine gives_bind (gives_store (by omega)) fun buf₃ h₃ => ?_
  refine gives_bind (gives_store (by omega)) fun buf₄ h₄ => ?_
  refine gives_pure.mpr ⟨?_, Nat.lt_add_of_pos_right (by decide)⟩
  rw [h₄, h₃, h₂, h₁]

theorem armthumbLoop_keeps {start : UInt32} {size turns : Nat} {buf : Bytes} {i : Nat}
    (hsize : size + 4 = buf.length) (hw : buf.length < wordSize) (hturns : size + 1 ≤ turns + i) :
    Gives (·.length = buf.length) (armthumbLoop start size turns buf i) := by
  induction turns generalizing buf i with
  | zero =>
    unfold armthumbLoop
    rw [if_neg (by omega)]
    exact gives_ok.mpr rfl
  | succ turns ih =>
    unfold armthumbLoop
    refine gives_ite (fun hle => ?_) fun _ => gives_ok.mpr rfl
    refine gives_bind (armthumbStep_keeps (by omega) hw) fun r hr => ?_
    rw [← hr.1]
    exact ih (by omega) (by omega) (by omega)

/-! ### IA-64 -/

theorem ia64Slot_keeps {start : UInt32} {i : Nat} {mask : UInt32} {buf : Bytes} {slot : Nat}
    (hslot : slot < 3) (h : i + 16 ≤ buf.length) (hw : buf.length < wordSize) :
    Gives (·.length = buf.length) (ia64Slot start i mask buf slot) := by
  have hpos : (5 + 41 * slot) / 8 ≤ 10 := by omega
  have hbit : (5 + 41 * slot) % 8 < 8 := Nat.mod_lt _ (by decide)
  have hload : Gives (fun _ => True) (ia64Load buf (i + (5 + 41 * slot) / 8)) := by
    refine gives_foldlM trivial fun instr j hj _ => ?_
    have hj := List.mem_range.mp hj
    rw [add64_ok (by omega), ok_bind]
    exact gives_bind (gives_index (by omega)) fun _ _ => gives_pure.mpr trivial
  have hstore : ∀ instr,
      Gives (·.length = buf.length) (ia64Store buf (i + (5 + 41 * slot) / 8) instr) := by
    intro instr
    refine gives_foldlM rfl fun b j hj hb => ?_
    have hj := List.mem_range.mp hj
    rw [add64_ok (by omega), ok_bind]
    exact (gives_store (by omega)).mono fun b' hb' => by omega
  have hlow : ∀ k < 8, 1 ≤ ((1 : UInt64) <<< UInt64.ofNat k).toNat := by decide
  unfold ia64Slot
  refine gives_ite (fun _ => gives_pure.mpr rfl) fun _ => ?_
  refine gives_bind (gives_add64 (by omega)) fun pos hat => ?_
  subst hat
  refine gives_bind hload fun instr _ => ?_
  refine gives_bind (gives_shr64 (by omega)) fun norm _ => ?_
  refine gives_ite (fun _ => ?_) fun _ => gives_pure.mpr rfl
  refine gives_bind (gives_shl64 (by omega)) fun bit hb => ?_
  refine gives_bind (gives_sub64 (hb ▸ hlow _ hbit)) fun low _ => ?_
  exact gives_bind (gives_shl64 (by omega)) fun high _ => hstore _

theorem ia64Step_keeps {start : UInt32} {buf : Bytes} {i : Nat} (h : i + 16 ≤ buf.length)
    (hw : buf.length < wordSize) : Gives (·.length = buf.length) (ia64Step start buf i) := by
  unfold ia64Step
  refine gives_bind (gives_index (by omega)) fun b _ => ?_
  have htemplate : (b &&& 0x1F).toNat < BRANCH_TABLE.length := by
    rw [UInt8.toNat_and]
    exact Nat.lt_of_le_of_lt Nat.and_le_right (by decide)
  refine gives_bind (gives_index htemplate) fun mask _ => ?_
  refine gives_foldlM rfl fun b' slot hs hb => ?_
  rw [← hb]
  exact ia64Slot_keeps (List.mem_range.mp hs) (by omega) (by omega)

/-! ### x86 -/

theorem byteAt_toNat (x : UInt32) {k : Nat} (hk : k < 32) :
    (x >>> UInt32.ofNat k).toUInt8.toNat = x.toNat / 2 ^ k % 256 := by
  have hk' : (UInt32.ofNat k).toNat % 32 = k := by
    rw [UInt32.toNat_ofNat']
    omega
  rw [UInt32.toNat_toUInt8, UInt32.toNat_shiftRight, hk', Nat.shiftRight_eq_div_pow]

theorem xor_ones {k x : Nat} (h : x < 2 ^ k) : x ^^^ (2 ^ k - 1) = 2 ^ k - 1 - x := by
  have hnot := BitVec.toNat_not (x := BitVec.ofNat k x)
  rw [← BitVec.xor_allOnes, BitVec.toNat_xor, BitVec.toNat_allOnes, BitVec.toNat_ofNat,
    Nat.mod_eq_of_lt h] at hnot
  exact hnot

/-- Subtracting the position twice, with the low `k` bits complemented in between, complements
the low `k` bits. -/
theorem flip_low (src addr : UInt32) {k : Nat} (hk : k = 24 ∨ k = 16 ∨ k = 8) :
    (((src - addr) ^^^ UInt32.ofNat (2 ^ k - 1)) - addr).toNat % 2 ^ k =
      2 ^ k - 1 - src.toNat % 2 ^ k := by
  have hs := src.toNat_lt
  have ha := addr.toNat_lt
  have hxor : ((src - addr) ^^^ UInt32.ofNat (2 ^ k - 1)).toNat % 2 ^ k =
      2 ^ k - 1 - (src - addr).toNat % 2 ^ k := by
    have hm : (UInt32.ofNat (2 ^ k - 1)).toNat = 2 ^ k - 1 := by
      rcases hk with rfl | rfl | rfl <;> rfl
    have hself : (2 ^ k - 1) % 2 ^ k = 2 ^ k - 1 :=
      Nat.mod_eq_of_lt (Nat.sub_lt (Nat.two_pow_pos k) Nat.one_pos)
    rw [UInt32.toNat_xor, hm, Nat.xor_mod_two_pow, hself,
      xor_ones (Nat.mod_lt _ (Nat.two_pow_pos k))]
  generalize (src - addr) ^^^ UInt32.ofNat (2 ^ k - 1) = t at hxor
  have ht := t.toNat_lt
  rw [UInt32.toNat_sub] at hxor ⊢
  rcases hk with rfl | rfl | rfl <;> omega

theorem msbyte_eq_false {b : UInt8} : msbyte b = false ↔ b.toNat ≠ 0 ∧ b.toNat ≠ 255 := by
  unfold msbyte
  rw [Bool.or_eq_false_iff, beq_eq_false_iff_ne, beq_eq_false_iff_ne, Ne, Ne,
    ← UInt8.toNat_inj, ← UInt8.toNat_inj]
  rfl

/-- The byte of an operand that the mask points at. -/
def x86Tested (n : Nat) (src : UInt32) : UInt8 := (src >>> UInt32.ofNat (24 - 8 * n)).toUInt8

/-- After one correction the tested byte is the complement of the operand's own. -/
theorem x86Tested_flip (src addr : UInt32) {n : Nat} (hn : n = 1 ∨ n = 2 ∨ n = 3)
    (h : msbyte (x86Tested n src) = false) :
    msbyte (x86Tested n (((src - addr) ^^^ UInt32.ofNat (2 ^ (32 - 8 * n) - 1)) - addr)) =
      false := by
  rw [msbyte_eq_false, x86Tested, byteAt_toNat _ (by omega)] at h ⊢
  have hflip := flip_low src addr (k := 32 - 8 * n) (by omega)
  generalize ((src - addr) ^^^ UInt32.ofNat (2 ^ (32 - 8 * n) - 1)) - addr = t at hflip
  rcases hn with rfl | rfl | rfl <;> omega

/-- One turn of the inner loop under a mask that is not empty. -/
theorem x86Dest_turn {addr prevMask src : UInt32} {n turns : Nat} (hne : prevMask ≠ 0)
    (hn : BIT_NUM[prevMask.toNat]? = some n) (hn3 : n = 1 ∨ n = 2 ∨ n = 3) :
    x86Dest addr prevMask (turns + 1) src =
      if msbyte (x86Tested n (src - addr)) then
        x86Dest addr prevMask turns ((src - addr) ^^^ UInt32.ofNat (2 ^ (32 - 8 * n) - 1))
      else .ok (src - addr) := by
  have hlow : ((1 : UInt32) <<< UInt32.ofNat (32 - n * 8)).toNat = 2 ^ (32 - 8 * n) := by
    rcases hn3 with rfl | rfl | rfl <;> rfl
  have hshift : 24 - n * 8 = 24 - 8 * n := by omega
  have hsub : 1 ≤ 2 ^ (32 - 8 * n) := Nat.one_le_two_pow
  rw [x86Dest, if_neg hne, index_eq_ok.mpr hn]
  simp only [ok_bind, sub64_ok (show n * 8 ≤ 24 by omega), sub64_ok (show n * 8 ≤ 32 by omega)]
  rw [shr32, guarded_ok (by omega), ok_bind, shl32, guarded_ok (by omega), ok_bind, hlow,
    sub64_ok hsub, ok_bind, hshift]
  cases h : msbyte (x86Tested n (src - addr)) with
  | false => exact if_pos (by rw [x86Tested] at h; rw [h]; decide)
  | true => exact if_neg (by rw [x86Tested] at h; rw [h]; decide)

theorem bitNum_cases {prevMask : UInt32} (hmask : prevMask.toNat < 8) (hne : prevMask ≠ 0) :
    ∃ n, BIT_NUM[prevMask.toNat]? = some n ∧ (n = 1 ∨ n = 2 ∨ n = 3) := by
  have htable : ∀ m < 8, m ≠ 0 → ∃ n, n < 4 ∧ BIT_NUM[m]? = some n ∧ (n = 1 ∨ n = 2 ∨ n = 3) := by
    decide
  obtain ⟨n, -, h⟩ := htable _ hmask fun h0 => hne (UInt32.toNat_inj.mp h0)
  exact ⟨n, h⟩

/-- **The inner loop ends**: it corrects the address at most once. -/
theorem x86Dest_ok {addr prevMask src : UInt32} (hmask : prevMask.toNat < 8)
    (h : prevMask ≠ 0 → ∀ n, BIT_NUM[prevMask.toNat]? = some n →
      msbyte (x86Tested n src) = false) :
    Gives (fun _ => True) (x86Dest addr prevMask 2 src) := by
  by_cases hne : prevMask = 0
  · rw [x86Dest, if_pos hne]
    exact gives_pure.mpr trivial
  obtain ⟨n, hn, hn3⟩ := bitNum_cases hmask hne
  rw [x86Dest_turn hne hn hn3]
  refine gives_ite (fun _ => ?_) fun _ => gives_ok.mpr trivial
  rw [x86Dest_turn hne hn hn3, x86Tested_flip src addr hn3 (h hne n hn)]
  exact gives_ok.mpr trivial

/-- The byte that bars a conversion is the operand byte the inner loop tests. -/
theorem x86Tested_operand {buf : Bytes} {i n : Nat} {b : UInt8} (hn : n = 1 ∨ n = 2 ∨ n = 3)
    (hlen : i + 5 ≤ buf.length) (hb : buf[i + 4 - n]? = some b) :
    x86Tested n (u32le ((buf.drop (i + 1)).take 4)) = b := by
  have hget : ((buf.drop (i + 1)).take 4)[3 - n]? = some b := by
    rw [List.getElem?_take_of_lt (by omega), List.getElem?_drop, ← hb]
    congr 1
    omega
  have hbyte := leNat_byte hget
  apply UInt8.toNat_inj.mp
  rw [x86Tested, byteAt_toNat _ (by omega), u32le_toNat (window_length (by omega)), ← hbyte]
  rcases hn with rfl | rfl | rfl <;> rfl

/-- The scan's state: the buffer has its length, the last opcode lies before the next position,
or there was none. -/
structure X86.Inv (len : Nat) (s : X86) : Prop where
  length : s.buf.length = len
  before : s.prevPos < s.i ∨ s.prevPos = wordSize - 1

theorem x86Mask_small {gap : Nat} {prevMask : UInt32} (hgap : 0 < gap) :
    Gives (·.toNat < 8) (x86Mask gap prevMask) := by
  unfold x86Mask
  refine gives_ite (fun _ => gives_pure.mpr (by decide)) fun hle => ?_
  refine gives_bind (gives_sub64 hgap) fun k hk => ?_
  refine gives_bind (gives_shl32 (by omega)) fun mask _ => gives_pure.mpr ?_
  rw [UInt32.toNat_and]
  exact Nat.lt_of_le_of_lt Nat.and_le_right (by decide)

theorem x86Barred_spec {buf : Bytes} {i : Nat} {prevMask : UInt32} (hmask : prevMask.toNat < 8)
    (h : i + 5 ≤ buf.length) (hw : buf.length < wordSize) :
    Gives (fun barred => barred = false → prevMask ≠ 0 → ∀ n, BIT_NUM[prevMask.toNat]? = some n →
      msbyte (x86Tested n (u32le ((buf.drop (i + 1)).take 4))) = false)
      (x86Barred buf i prevMask) := by
  unfold x86Barred
  refine gives_ite (fun h0 => gives_pure.mpr fun _ hne => absurd h0 hne) fun hne => ?_
  obtain ⟨n, hn, hn3⟩ := bitNum_cases hmask hne
  have hallowed : prevMask.toNat < ALLOWED.length := hmask
  rw [index_eq_ok.mpr hn, ok_bind, add64_ok (by omega), ok_bind, sub64_ok (by omega), ok_bind]
  refine gives_bind (gives_index (by omega)) fun b hb => ?_
  refine gives_bind (gives_index hallowed) fun allowed _ => gives_pure.mpr ?_
  intro hbarred _ n' hn'
  rw [hn] at hn'
  cases hn'
  rw [x86Tested_operand hn3 h hb]
  exact (Bool.or_eq_false_iff.mp hbarred).2

theorem x86Convert_keeps {start : UInt32} {s : X86} {len : Nat} (hinv : s.buf.length = len)
    (hpos : s.prevPos = s.i) (hlen : s.i + 5 ≤ len) (hw : len < wordSize)
    (hmask : s.prevMask.toNat < 8)
    (hclear : s.prevMask ≠ 0 → ∀ n, BIT_NUM[s.prevMask.toNat]? = some n →
      msbyte (x86Tested n (u32le ((s.buf.drop (s.i + 1)).take 4))) = false) :
    Gives (fun s' => s'.Inv len ∧ s.i < s'.i) (x86Convert start s) := by
  have a1 : (add64 s.i 1 : Res Nat) = .ok (s.i + 1) := add64_ok (by omega)
  have a5 : (add64 s.i 5 : Res Nat) = .ok (s.i + 5) := add64_ok (by omega)
  simp only [x86Convert, a1, a5, ok_bind]
  refine gives_bind (gives_u32At (by omega) (by omega)) fun src hsrc => ?_
  subst hsrc
  refine gives_bind (x86Dest_ok hmask hclear) fun dest _ => ?_
  refine gives_bind (gives_copyInto (by rw [u32Bytes_length]; omega)) fun buf hbuf => ?_
  refine gives_pure.mpr ⟨⟨hbuf.trans hinv, Or.inl ?_⟩, ?_⟩
  · rw [hpos]; exact Nat.lt_add_of_pos_right (by decide)
  · exact Nat.lt_add_of_pos_right (by decide)

theorem x86Remember_keeps {s : X86} {len : Nat} (hinv : s.buf.length = len)
    (hpos : s.prevPos = s.i) (hlen : s.i + 5 ≤ len) (hw : len < wordSize) :
    Gives (fun s' => s'.Inv len ∧ s.i < s'.i) (x86Remember s) := by
  unfold x86Remember
  rw [add64_ok (by omega), ok_bind]
  refine gives_pure.mpr ⟨⟨hinv, Or.inl ?_⟩, Nat.lt_succ_self _⟩
  rw [hpos]
  exact Nat.lt_succ_self _

theorem x86Step_keeps {start : UInt32} {s : X86} {len : Nat} (hinv : s.Inv len)
    (hlen : s.i + 5 ≤ len) (hw : len < wordSize) :
    Gives (fun s' => s'.Inv len ∧ s.i < s'.i) (x86Step start s) := by
  have hl := hinv.length
  have hgap : 0 < (s.i + wordSize - s.prevPos) % wordSize := by
    have hbefore := hinv.before
    unfold wordSize at *
    omega
  unfold x86Step
  refine gives_bind (gives_index (by omega)) fun op _ => gives_ite (fun _ => ?_) fun _ => ?_
  · rw [add64_ok (by omega), ok_bind]
    refine gives_pure.mpr ⟨⟨hl, ?_⟩, Nat.lt_succ_self _⟩
    exact hinv.before.imp Nat.lt_succ_of_lt id
  refine gives_bind (x86Mask_small hgap) fun mask hmask => ?_
  refine gives_bind (x86Barred_spec hmask (by omega) (by omega)) fun barred hclear => ?_
  refine gives_ite (fun _ => x86Remember_keeps hl rfl hlen hw) fun hfree => ?_
  rw [add64_ok (by omega), ok_bind]
  refine gives_bind (gives_index (by omega)) fun b _ => gives_ite (fun _ => ?_) fun _ => ?_
  · exact x86Convert_keeps hl rfl hlen hw hmask (hclear (by simpa using hfree))
  · exact x86Remember_keeps hl rfl hlen hw

theorem x86Loop_keeps {start : UInt32} {size turns : Nat} {s : X86} (hinv : s.Inv (size + 4))
    (hw : size + 4 < wordSize) (hturns : size ≤ turns + s.i) :
    Gives (·.length = size + 4) (x86Loop start size turns s) := by
  induction turns generalizing s with
  | zero =>
    unfold x86Loop
    rw [if_neg (by omega)]
    exact gives_ok.mpr hinv.length
  | succ turns ih =>
    unfold x86Loop
    refine gives_ite (fun hlt => ?_) fun _ => gives_ok.mpr hinv.length
    exact gives_bind (x86Step_keeps hinv (by omega) hw) fun s' hs' => ih hs'.1 (by omega)

/-! ### All six -/

/-- **Every converter ends, fires no guard and keeps the buffer's length.** -/
theorem decode_keeps (kind : Bcj) (start : UInt32) (buf : Bytes) (hw : buf.length < wordSize) :
    Gives (·.length = buf.length) (decode kind start buf) := by
  cases kind with
  | x86 =>
    show Gives _ (x86 start buf)
    unfold x86
    refine gives_ite (fun _ => gives_pure.mpr rfl) fun hgt => ?_
    rw [sub64_ok (by omega), ok_bind]
    have hlen : buf.length - 4 + 4 = buf.length := by omega
    have hinv : X86.Inv (buf.length - 4 + 4) ⟨buf, wordSize - 1, 0, 0⟩ :=
      ⟨hlen.symm, Or.inr rfl⟩
    rw [← hlen]
    exact x86Loop_keeps hinv (by omega) (Nat.le_add_right _ _)
  | powerPc =>
    refine stepBy_keeps (by decide) fun b i hb hi => ?_
    rw [← hb]; exact powerpcStep_keeps (by omega) (by omega)
  | ia64 =>
    refine stepBy_keeps (by decide) fun b i hb hi => ?_
    rw [← hb]; exact ia64Step_keeps (by omega) (by omega)
  | arm =>
    refine stepBy_keeps (by decide) fun b i hb hi => ?_
    rw [← hb]; exact armStep_keeps (by omega) (by omega)
  | armThumb =>
    show Gives _ (armthumb start buf)
    unfold armthumb
    refine gives_ite (fun _ => gives_pure.mpr rfl) fun hge => ?_
    rw [sub64_ok (by omega), ok_bind]
    exact armthumbLoop_keeps (by omega) hw (Nat.le_refl _)
  | sparc =>
    refine stepBy_keeps (by decide) fun b i hb hi => ?_
    rw [← hb]; exact sparcStep_keeps (by omega) (by omega)

end Squashfs.Xz
