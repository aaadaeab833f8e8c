import Squashfs.Xz.BranchWords

/-!
# The steps of the fixed-pattern converters

About one turn of each loop in `src/xz.rs:452-559` but IA-64's: it relocates the branches of the
unit it is at, and leaves the rest of the buffer as it was: **`armStep_eq`**, **`powerpcStep_eq`**,
**`sparcStep_eq`** and, where an ARM-Thumb pair stands, **`armthumbStep_eq`**. IA-64's is `Ia64`'s.
-/

namespace Squashfs.Xz

open Foundation
open Foundation.BranchCode

/-! ## Four bytes -/

theorem four_bytes {u : Bytes} (hu : u.length = 4) : ∃ b0 b1 b2 b3, u = [b0, b1, b2, b3] :=
  match u, hu with
  | [b0, b1, b2, b3], _ => ⟨b0, b1, b2, b3, rfl⟩

theorem leNat_four (b0 b1 b2 b3 : UInt8) : leNat [b0, b1, b2, b3] =
    b0.toNat + 2 ^ 8 * b1.toNat + 2 ^ 16 * b2.toNat + 2 ^ 24 * b3.toNat := by
  simp only [leNat]
  omega

theorem ofNat_eq {x : Nat} {b : UInt8} (h : x % 256 = b.toNat) : UInt8.ofNat x = b := by
  apply UInt8.toNat_inj.mp
  rw [UInt8.toNat_ofNat', h]

/-- A byte put above the bits there are. -/
theorem toNat_or_byte {x : UInt32} (b : UInt8) {k : Nat} (hx : x.toNat < 2 ^ k) (hk : k ≤ 24) :
    (x ||| b.toUInt32 <<< UInt32.ofNat k).toNat = x.toNat + 2 ^ k * b.toNat := by
  have hb := b.toNat_lt
  have hk' : (UInt32.ofNat k).toNat % 32 = k := by
    rw [UInt32.toNat_ofNat']
    omega
  have hfits : 2 ^ k * b.toNat < 2 ^ 32 := calc
    2 ^ k * b.toNat < 2 ^ k * 2 ^ 8 := Nat.mul_lt_mul_of_pos_left hb (Nat.two_pow_pos k)
    _ = 2 ^ (k + 8) := (Nat.pow_add 2 k 8).symm
    _ ≤ 2 ^ 32 := Nat.pow_le_pow_right (by decide) (by omega)
  have hshift : b.toNat <<< k % 2 ^ 32 = b.toNat <<< k := by
    rw [Nat.shiftLeft_eq, Nat.mul_comm, Nat.mod_eq_of_lt hfits]
  rw [UInt32.toNat_or, UInt32.toNat_shiftLeft, hk', UInt8.toNat_toUInt32, hshift, or_shiftLeft hx]

/-- Three bytes written one after the other. -/
theorem store_three (done l : Bytes) (b0 b1 b2 x0 x1 x2 : UInt8) :
    (do
      let buf ← store (done ++ (b0 :: b1 :: b2 :: l)) done.length x0
      let buf ← store buf (done.length + 1) x1
      store buf (done.length + 2) x2 : Res Bytes) = .ok (done ++ (x0 :: x1 :: x2 :: l)) := by
  have s0 : (store (done ++ (b0 :: b1 :: b2 :: l)) done.length x0 : Res Bytes) =
      .ok (done ++ (x0 :: b1 :: b2 :: l)) := store_append (k := 0) (Nat.succ_pos _)
  rw [s0, ok_bind, store_append (by simp), ok_bind, store_append (by simp)]
  rfl

/-- The unit of a kind with one code. -/
theorem Bcj.convertUnit_single {kind : Bcj} {c : BranchCode} (hc : kind.codes = [c])
    {f : UInt32 → UInt32 → UInt32} {start : UInt32} {pos : Nat} {u : Bytes}
    (h : c.isBranch (kind.word u) = true) :
    kind.convertUnit f start pos u = kind.ofWord (c.withAddress (kind.word u)
      (relocated f kind.scale kind.width (start + UInt32.ofNat pos + kind.ahead)
        (c.address (kind.word u)))) := by
  rw [Bcj.convertUnit, hc, moves_cons, move, if_pos h]
  rfl

theorem Bcj.convertUnit_single_not {kind : Bcj} {c : BranchCode} (hc : kind.codes = [c])
    {f : UInt32 → UInt32 → UInt32} {start : UInt32} {pos : Nat} {u : Bytes}
    (hu : u.length = kind.unit) (h : ¬ c.isBranch (kind.word u) = true) :
    kind.convertUnit f start pos u = u := by
  refine Bcj.convertUnit_of_not hu ?_
  rw [hc]
  exact List.forall_mem_singleton.mpr (Bool.not_eq_true _ ▸ h)

section Steps

variable {start : UInt32} {done rest u : Bytes}

/-! ## ARM -/

theorem arm_isBranch (b0 b1 b2 b3 : UInt8) :
    armSplit.code.isBranch (leNat [b0, b1, b2, b3]) = true ↔ b3 = 0xEB := by
  have h0 := b0.toNat_lt
  have h1 := b1.toNat_lt
  have h2 := b2.toNat_lt
  have h3 := b3.toNat_lt
  have hfield : armSplit.code.isBranch (leNat [b0, b1, b2, b3]) =
      (field (leNat [b0, b1, b2, b3]) 24 8 == 0xEB) := Bool.and_true _
  rw [hfield, beq_iff_eq, field_eq_div_mod, leNat_four, ← UInt8.toNat_inj]
  show _ ↔ b3.toNat = 235
  omega

/-- The address in the low three bytes. -/
theorem arm_withAddress (x v : Nat) :
    armSplit.withAddress x v = v % 2 ^ 24 + 2 ^ 24 * (x / 2 ^ 24) := by
  simp only [Split.withAddress, armSplit, setField_eq]
  omega

theorem arm_address (x : Nat) : armSplit.address x = x % 2 ^ 24 := by
  simp only [Split.address, armSplit, field_eq_div_mod]
  omega

theorem arm_unit {pos t : UInt32} (b0 b1 b2 b3 : UInt8)
    (ht : t = ((b0.toUInt32 ||| (b1.toUInt32 <<< 8) ||| (b2.toUInt32 <<< 16)) <<< 2 - pos) >>> 2) :
    Bcj.arm.ofWord (armSplit.withAddress (leNat [b0, b1, b2, b3])
        (relocated (· - ·) 2 24 pos (armSplit.address (leNat [b0, b1, b2, b3])))) =
      [t.toUInt8, (t >>> 8).toUInt8, (t >>> 16).toUInt8, b3] := by
  have h0 := b0.toNat_lt
  have h1 := b1.toNat_lt
  have h2 := b2.toNat_lt
  have h3 := b3.toNat_lt
  have hlow : (b0.toUInt32 ||| b1.toUInt32 <<< 8).toNat = b0.toNat + 2 ^ 8 * b1.toNat :=
    toNat_or_byte b1 (k := 8) h0 (by decide)
  have haddr : (b0.toUInt32 ||| b1.toUInt32 <<< 8 ||| b2.toUInt32 <<< 16).toNat =
      b0.toNat + 2 ^ 8 * b1.toNat + 2 ^ 16 * b2.toNat := by
    rw [← hlow]
    exact toNat_or_byte b2 (k := 16) (by omega) (by decide)
  have hshift : (b0.toUInt32 ||| b1.toUInt32 <<< 8 ||| b2.toUInt32 <<< 16) <<< 2 =
      UInt32.ofNat (2 ^ 2 * armSplit.address (leNat [b0, b1, b2, b3])) := by
    apply UInt32.toNat_inj.mp
    rw [UInt32.toNat_shiftLeft, haddr, arm_address, leNat_four, UInt32.toNat_ofNat',
      show (2 : UInt32).toNat % 32 = 2 from rfl, Nat.shiftLeft_eq]
    omega
  have ht : relocated (· - ·) 2 24 pos (armSplit.address (leNat [b0, b1, b2, b3])) =
      t.toNat % 2 ^ 24 := by
    rw [ht, hshift, UInt32.toNat_shiftRight, Nat.shiftRight_eq_div_pow]
    rfl
  have hb0 : t.toUInt8.toNat = t.toNat % 256 := UInt32.toNat_toUInt8 t
  have hb1 : (t >>> 8).toUInt8.toNat = t.toNat / 2 ^ 8 % 256 := byteAt_toNat t (k := 8) (by decide)
  have hb2 : (t >>> 16).toUInt8.toNat = t.toNat / 2 ^ 16 % 256 :=
    byteAt_toNat t (k := 16) (by decide)
  rw [ht, arm_withAddress, leNat_four]
  show [UInt8.ofNat _, UInt8.ofNat _, UInt8.ofNat _, UInt8.ofNat _] = _
  rw [ofNat_eq (b := t.toUInt8) (by omega), ofNat_eq (b := (t >>> 8).toUInt8) (by omega),
    ofNat_eq (b := (t >>> 16).toUInt8) (by omega), ofNat_eq (b := b3) (by omega)]

theorem armStep_eq (hu : u.length = 4) (hw : (done ++ (u ++ rest)).length < wordSize) :
    armStep start (done ++ (u ++ rest)) done.length =
      .ok (done ++ (Bcj.arm.convertUnit (· - ·) start done.length u ++ rest)) := by
  obtain ⟨b0, b1, b2, b3, rfl⟩ := four_bytes hu
  simp only [List.length_append, List.length_cons, List.length_nil] at hw
  have a1 : (add64 done.length 1 : Res Nat) = .ok (done.length + 1) := add64_ok (by omega)
  have a2 : (add64 done.length 2 : Res Nat) = .ok (done.length + 2) := add64_ok (by omega)
  have a3 : (add64 done.length 3 : Res Nat) = .ok (done.length + 3) := add64_ok (by omega)
  have i0 : (index (done ++ ([b0, b1, b2, b3] ++ rest)) done.length : Res UInt8) = .ok b0 :=
    index_append done _ 0
  have i3 : (index ([b0, b1, b2, b3] ++ rest) 3 : Res UInt8) = .ok b3 := rfl
  have i1 : (index ([b0, b1, b2, b3] ++ rest) 1 : Res UInt8) = .ok b1 := rfl
  have i2 : (index ([b0, b1, b2, b3] ++ rest) 2 : Res UInt8) = .ok b2 := rfl
  simp only [armStep, a1, a2, a3, ok_bind, i0, index_append, i1, i2, i3]
  by_cases hop : b3 = 0xEB
  · rw [if_pos hop]
    refine (store_three done ([b3] ++ rest) b0 b1 b2 _ _ _).trans ?_
    rw [Bcj.convertUnit_single rfl ((arm_isBranch b0 b1 b2 b3).mpr hop)]
    exact congrArg (fun u => Except.ok (done ++ (u ++ rest))) (arm_unit b0 b1 b2 b3 rfl).symm
  · rw [if_neg hop, Bcj.convertUnit_single_not rfl rfl (mt (arm_isBranch b0 b1 b2 b3).mp hop)]
    rfl

/-! ## PowerPC and SPARC -/

theorem u32BeAt_append (hu : u.length = 4) (hw : (done ++ (u ++ rest)).length < wordSize) :
    u32BeAt (done ++ (u ++ rest)) done.length = .ok (u32be u) := by
  simp only [List.length_append, hu] at hw
  rw [u32BeAt, add64_ok (by omega), ok_bind,
    slice_window_ok (by simp only [List.length_append]; omega), ok_bind, List.drop_left, ← hu,
    List.take_left, array_ok rfl]
  rfl

theorem u32be_toNat (hu : u.length = 4) : (u32be u).toNat = leNat u.reverse :=
  u32le_toNat (by rw [List.length_reverse, hu])

/-- A number written big-endian. -/
theorem u32BytesBe_eq {x : UInt32} {n : Nat} (h : x.toNat = n) :
    u32BytesBe x = (leBytes 4 n).reverse := by
  rw [u32BytesBe, u32Bytes, h]

/-- The two fields of a branch word. -/
theorem powerpc_fields {x : Nat} :
    powerpcSplit.code.isBranch x = true ↔ field x 26 6 = 0x12 ∧ field x 0 2 = 1 := by
  have hfields : powerpcSplit.code.isBranch x =
      (field x 26 6 == 0x12 && (field x 0 2 == 1 && true)) := rfl
  rw [hfields, Bool.and_true, Bool.and_eq_true, beq_iff_eq, beq_iff_eq]

theorem powerpc_isBranch (instr : UInt32) : powerpcSplit.code.isBranch instr.toNat = true ↔
    instr &&& 0xFC000003 = 0x48000001 := by
  have hlow := field_lt instr.toNat 0 2
  have hmask : (instr &&& 0xFC000003).toNat =
      field instr.toNat 0 2 + 2 ^ 26 * field instr.toNat 26 6 := by
    rw [UInt32.toNat_and]
    show instr.toNat &&& ((2 ^ 2 - 1) * 2 ^ 0 ||| (2 ^ 6 - 1) * 2 ^ 26) = _
    rw [Nat.and_or_distrib_left, and_mask, and_mask, ← Nat.shiftLeft_eq _ 26,
      or_shiftLeft (by omega), Nat.pow_zero, Nat.mul_one]
  rw [powerpc_fields, ← UInt32.toNat_inj, hmask]
  show _ ↔ _ = 0x48000001
  omega

/-- A branch word, its address between the constant bits. -/
theorem powerpc_withAddress {x v : Nat} (hlt : x < 2 ^ 32)
    (hx : powerpcSplit.code.isBranch x = true) :
    powerpcSplit.withAddress x v = v % 2 ^ 24 * 2 ^ 2 ||| 0x48000001 := by
  obtain ⟨hhigh, hlow⟩ := powerpc_fields.mp hx
  rw [field_eq_div_mod] at hhigh hlow
  have htop : x >>> 26 = 0x12 := by
    rw [Nat.shiftRight_eq_div_pow]
    omega
  show setField (setField x 2 24 v) 26 0 _ = _
  rw [setField_empty, setField, htop, show x % 2 ^ 2 = 1 by omega, Nat.or_comm 1, Nat.or_assoc,
    Nat.shiftLeft_eq]
  rfl

theorem powerpc_address (x : Nat) : powerpcSplit.address x = field x 2 24 := by
  have hempty : field x 26 0 = 0 := Nat.mod_one _
  show field x 2 24 + 2 ^ 24 * field x 26 0 = _
  rw [hempty, Nat.mul_zero, Nat.add_zero]

/-- The address bits of a word, in place. -/
theorem powerpc_mask (x : UInt32) : (x &&& 0x03FFFFFC).toNat = field x.toNat 2 24 * 2 ^ 2 := by
  rw [UInt32.toNat_and]
  exact and_mask x.toNat 2 24

theorem powerpc_unit {instr pos : UInt32} (hx : powerpcSplit.code.isBranch instr.toNat = true) :
    ((((instr &&& 0x03FFFFFC) - pos) &&& 0x03FFFFFC) ||| 0x48000001).toNat =
      powerpcSplit.withAddress instr.toNat
        (relocated (· - ·) 2 24 pos (powerpcSplit.address instr.toNat)) := by
  have hfield := field_lt instr.toNat 2 24
  have hmask : instr &&& 0x03FFFFFC = UInt32.ofNat (2 ^ 2 * powerpcSplit.address instr.toNat) := by
    apply UInt32.toNat_inj.mp
    rw [powerpc_mask, powerpc_address, UInt32.toNat_ofNat']
    omega
  have hmoved : field ((instr &&& 0x03FFFFFC) - pos).toNat 2 24 =
      relocated (· - ·) 2 24 pos (powerpcSplit.address instr.toNat) := by
    rw [field_eq_div_mod, hmask]
    rfl
  rw [powerpc_withAddress instr.toNat_lt hx, Nat.mod_eq_of_lt (relocated_lt _ _ _ _ _), ← hmoved,
    UInt32.toNat_or, powerpc_mask]
  rfl

theorem powerpcStep_eq (hu : u.length = 4) (hw : (done ++ (u ++ rest)).length < wordSize) :
    powerpcStep start (done ++ (u ++ rest)) done.length =
      .ok (done ++ (Bcj.powerPc.convertUnit (· - ·) start done.length u ++ rest)) := by
  have hword : Bcj.powerPc.word u = (u32be u).toNat := (u32be_toNat hu).symm
  rw [powerpcStep, u32BeAt_append hu hw, ok_bind]
  by_cases hop : u32be u &&& 0xFC000003 = 0x48000001
  · have hbranch := (powerpc_isBranch (u32be u)).mpr hop
    rw [if_pos hop]
    refine (copyInto_append (by rw [u32BytesBe_length, hu])).trans ?_
    rw [Bcj.convertUnit_single rfl (by rw [hword]; exact hbranch), hword,
      u32BytesBe_eq (powerpc_unit hbranch), show Bcj.powerPc.ahead = 0 from rfl, UInt32.add_zero]
    rfl
  · rw [if_neg hop, Bcj.convertUnit_single_not rfl hu
      (by rw [hword]; exact mt (powerpc_isBranch (u32be u)).mp hop)]
    rfl

theorem sparc_isBranch (instr : UInt32) : sparcCode.isBranch instr.toNat = true ↔
    instr >>> 22 = 0x100 ∨ instr >>> 22 = 0x1FF := by
  have hlt := instr.toNat_lt
  have hfield : sparcCode.isBranch instr.toNat =
      ((field instr.toNat 22 10 == 0x100 || field instr.toNat 22 10 == 0x1FF) && true) := rfl
  have hshift : (instr >>> 22).toNat = field instr.toNat 22 10 := by
    rw [UInt32.toNat_shiftRight, field_eq_div_mod]
    show instr.toNat >>> 22 = _
    rw [Nat.shiftRight_eq_div_pow]
    omega
  rw [hfield, Bool.and_true, Bool.or_eq_true, beq_iff_eq, beq_iff_eq, ← UInt32.toNat_inj,
    ← UInt32.toNat_inj, hshift]
  rfl

/-- The opcode, the sign over the bits the address does not reach, and the address. -/
theorem sparc_signed (t : UInt32) :
    ((0x40000000 - (t &&& 0x400000)) ||| 0x40000000 ||| (t &&& 0x3FFFFF)).toNat =
      2 ^ 30 + sparcExtended t.toNat := by
  have hlow : (t &&& 0x3FFFFF).toNat = t.toNat % 2 ^ 22 := by
    rw [UInt32.toNat_and]
    exact Nat.and_two_pow_sub_one_eq_mod t.toNat 22
  have hsign : (t &&& 0x400000).toNat = t.toNat / 2 ^ 22 % 2 * 2 ^ 22 := by
    rw [UInt32.toNat_and]
    show t.toNat &&& (2 ^ 1 - 1) * 2 ^ 22 = _
    rw [and_mask, field_eq_div_mod, Nat.pow_one]
  have hlt : t.toNat % 2 ^ 22 < 2 ^ 22 := Nat.mod_lt _ (by decide)
  rw [UInt32.toNat_or, UInt32.toNat_or, UInt32.toNat_sub, hsign, hlow, sparcExtended]
  rcases Nat.mod_two_eq_zero_or_one (t.toNat / 2 ^ 22) with h | h
  · rw [h]
    have hhigh : (2 ^ 32 - 0 * 2 ^ 22 + (0x40000000 : UInt32).toNat) % 2 ^ 32 |||
        (0x40000000 : UInt32).toNat = 256 <<< 22 := rfl
    rw [hhigh, Nat.or_comm, or_shiftLeft hlt]
    omega
  · rw [h]
    have hhigh : (2 ^ 32 - 1 * 2 ^ 22 + (0x40000000 : UInt32).toNat) % 2 ^ 32 |||
        (0x40000000 : UInt32).toNat = 511 <<< 22 := rfl
    rw [hhigh, Nat.or_comm, or_shiftLeft hlt]
    omega

theorem sparcExtended_mod (v : Nat) : sparcExtended (v % 2 ^ 23) = sparcExtended v := by
  unfold sparcExtended
  have hlow : v % 2 ^ 23 % 2 ^ 22 = v % 2 ^ 22 := by omega
  have hsign : v % 2 ^ 23 / 2 ^ 22 % 2 = v / 2 ^ 22 % 2 := by omega
  rw [hlow, hsign]

/-- A branch word, its opcode above the address. -/
theorem sparc_withAddress {x : Nat} (v : Nat) (hlt : x < 2 ^ 32)
    (hx : sparcCode.isBranch x = true) :
    sparcCode.withAddress x v = 2 ^ 30 + sparcExtended v := by
  have hfield : (field x 22 10 == 0x100 || field x 22 10 == 0x1FF) = true := by
    have hall : ((field x 22 10 == 0x100 || field x 22 10 == 0x1FF) && true) = true := hx
    rwa [Bool.and_true] at hall
  rw [Bool.or_eq_true, beq_iff_eq, beq_iff_eq, field_eq_div_mod] at hfield
  have hsmall : sparcExtended v < 2 ^ 30 := by
    unfold sparcExtended
    omega
  show setField x 0 30 (sparcExtended v) = _
  rw [setField_eq]
  omega

theorem sparc_unit {instr pos t : UInt32} (ht : t = (instr <<< 2 - pos) >>> 2)
    (hx : sparcCode.isBranch instr.toNat = true) :
    ((0x40000000 - (t &&& 0x400000)) ||| 0x40000000 ||| (t &&& 0x3FFFFF)).toNat =
      sparcCode.withAddress instr.toNat
        (relocated (· - ·) 2 23 pos (sparcCode.address instr.toNat)) := by
  have hmoved : relocated (· - ·) 2 23 pos (sparcCode.address instr.toNat) =
      t.toNat % 2 ^ 23 := by
    have hshift : (instr <<< 2).toNat = instr.toNat * 2 ^ 2 % 2 ^ 32 := by
      rw [UInt32.toNat_shiftLeft]
      show instr.toNat <<< 2 % 2 ^ 32 = _
      rw [Nat.shiftLeft_eq]
    have hright : t.toNat = (instr <<< 2 - pos).toNat / 2 ^ 2 := by
      rw [ht, UInt32.toNat_shiftRight]
      show (instr <<< 2 - pos).toNat >>> 2 = _
      rw [Nat.shiftRight_eq_div_pow]
    show relocated (· - ·) 2 23 pos (field instr.toNat 0 23) = _
    rw [hright, UInt32.toNat_sub, hshift, relocated, UInt32.toNat_sub, UInt32.toNat_ofNat',
      field_eq_div_mod]
    omega
  rw [sparc_signed, sparc_withAddress _ instr.toNat_lt hx, hmoved, sparcExtended_mod]

theorem sparcStep_eq (hu : u.length = 4) (hw : (done ++ (u ++ rest)).length < wordSize) :
    sparcStep start (done ++ (u ++ rest)) done.length =
      .ok (done ++ (Bcj.sparc.convertUnit (· - ·) start done.length u ++ rest)) := by
  have hword : Bcj.sparc.word u = (u32be u).toNat := (u32be_toNat hu).symm
  rw [sparcStep, u32BeAt_append hu hw, ok_bind]
  by_cases hop : u32be u >>> 22 = 0x100 ∨ u32be u >>> 22 = 0x1FF
  · have hbranch := (sparc_isBranch (u32be u)).mpr hop
    rw [if_pos hop]
    refine (copyInto_append (by rw [u32BytesBe_length, hu])).trans ?_
    rw [Bcj.convertUnit_single rfl (by rw [hword]; exact hbranch), hword,
      u32BytesBe_eq (sparc_unit rfl hbranch), show Bcj.sparc.ahead = 0 from rfl, UInt32.add_zero]
    rfl
  · rw [if_neg hop, Bcj.convertUnit_single_not rfl hu
      (by rw [hword]; exact mt (sparc_isBranch (u32be u)).mp hop)]
    rfl

/-! ## ARM-Thumb -/

theorem high_bits (b : UInt8) : (b &&& 0xF8).toNat = b.toNat / 2 ^ 3 * 2 ^ 3 := by
  have hb := b.toNat_lt
  have hmask : (b &&& 0xF8).toNat = field b.toNat 3 5 * 2 ^ 3 := by
    rw [UInt8.toNat_and]
    exact and_mask b.toNat 3 5
  rw [hmask, field_eq_div_mod]
  omega

theorem armthumb_isBranch (b0 b1 b2 b3 : UInt8) :
    armthumbSplit.code.isBranch (leNat [b0, b1, b2, b3]) = true ↔
      b1 &&& 0xF8 = 0xF0 ∧ b3 &&& 0xF8 = 0xF8 := by
  have h0 := b0.toNat_lt
  have h1 := b1.toNat_lt
  have h2 := b2.toNat_lt
  have h3 := b3.toNat_lt
  have hfields : armthumbSplit.code.isBranch (leNat [b0, b1, b2, b3]) =
      (field (leNat [b0, b1, b2, b3]) 11 5 == 0x1E &&
        (field (leNat [b0, b1, b2, b3]) 27 5 == 0x1F && true)) := rfl
  rw [hfields, Bool.and_true, Bool.and_eq_true, beq_iff_eq, beq_iff_eq, field_eq_div_mod,
    field_eq_div_mod, leNat_four, ← UInt8.toNat_inj, ← UInt8.toNat_inj, high_bits, high_bits]
  show _ ↔ _ = 0xF0 ∧ _ = 0xF8
  omega

theorem armthumb_address (b0 b1 b2 b3 : UInt8) :
    armthumbSplit.address (leNat [b0, b1, b2, b3]) =
      2 ^ 19 * (b1.toNat % 2 ^ 3) + 2 ^ 11 * b0.toNat + 2 ^ 8 * (b3.toNat % 2 ^ 3) + b2.toNat := by
  have h0 := b0.toNat_lt
  have h1 := b1.toNat_lt
  have h2 := b2.toNat_lt
  have h3 := b3.toNat_lt
  simp only [Split.address, armthumbSplit, field_eq_div_mod, leNat_four]
  omega

/-- The three low bits of a byte, in place. -/
theorem low_bits (b : UInt8) (k : Nat) (hk : k ≤ 19) :
    ((b.toUInt32 &&& 0x07) <<< UInt32.ofNat k).toNat = 2 ^ k * (b.toNat % 2 ^ 3) := by
  have hk' : (UInt32.ofNat k).toNat % 32 = k := by
    rw [UInt32.toNat_ofNat']
    omega
  have hlow : (b.toUInt32 &&& 0x07).toNat = b.toNat % 2 ^ 3 := by
    rw [UInt32.toNat_and]
    exact Nat.and_two_pow_sub_one_eq_mod b.toNat 3
  have hfits : 2 ^ k * (b.toNat % 2 ^ 3) < 2 ^ 32 := calc
    2 ^ k * (b.toNat % 2 ^ 3) < 2 ^ k * 2 ^ 3 :=
      Nat.mul_lt_mul_of_pos_left (Nat.mod_lt _ (by decide)) (Nat.two_pow_pos k)
    _ = 2 ^ (k + 3) := (Nat.pow_add 2 k 3).symm
    _ ≤ 2 ^ 32 := Nat.pow_le_pow_right (by decide) (by omega)
  rw [UInt32.toNat_shiftLeft, hk', hlow, Nat.shiftLeft_eq, Nat.mul_comm, Nat.mod_eq_of_lt hfits]

/-- Three bits of an address under a prefix. -/
theorem prefixed_bits (t : UInt32) {k : Nat} (hk : k < 32) {p : UInt8}
    (hp : p = 0xF0 ∨ p = 0xF8) :
    (p ||| ((t >>> UInt32.ofNat k) &&& 0x07).toUInt8).toNat =
      p.toNat + t.toNat / 2 ^ k % 2 ^ 3 := by
  have hk' : (UInt32.ofNat k).toNat % 32 = k := by
    rw [UInt32.toNat_ofNat']
    omega
  have hlow : ((t >>> UInt32.ofNat k) &&& 0x07).toNat = t.toNat / 2 ^ k % 2 ^ 3 := by
    rw [UInt32.toNat_and, UInt32.toNat_shiftRight, hk', Nat.shiftRight_eq_div_pow]
    exact Nat.and_two_pow_sub_one_eq_mod _ 3
  have hlt : t.toNat / 2 ^ k % 2 ^ 3 < 2 ^ 3 := Nat.mod_lt _ (by decide)
  have hpre : p.toNat = 2 ^ 3 * (p.toNat / 2 ^ 3) := by
    rcases hp with rfl | rfl <;> rfl
  rw [UInt8.toNat_or, UInt32.toNat_toUInt8, hlow, Nat.mod_eq_of_lt (by omega), hpre,
    ← Nat.two_pow_add_eq_or_of_lt hlt]

/-- The address an ARM-Thumb pair carries, as the converter puts it together. -/
theorem armthumb_loaded (b0 b1 b2 b3 : UInt8) :
    (((b1.toUInt32 &&& 0x07) <<< 19) ||| (b0.toUInt32 <<< 11) |||
      ((b3.toUInt32 &&& 0x07) <<< 8) ||| b2.toUInt32).toNat =
      armthumbSplit.address (leNat [b0, b1, b2, b3]) := by
  have h0 := b0.toNat_lt
  have h2 := b2.toNat_lt
  have hhigh : ((b1.toUInt32 &&& 0x07) <<< 19).toNat = 2 ^ 19 * (b1.toNat % 2 ^ 3) :=
    low_bits b1 19 (by decide)
  have hthird : ((b3.toUInt32 &&& 0x07) <<< 8).toNat = 2 ^ 8 * (b3.toNat % 2 ^ 3) :=
    low_bits b3 8 (by decide)
  have hsecond : (b0.toUInt32 <<< 11).toNat = 2 ^ 11 * b0.toNat := by
    have hor := toNat_or_byte (x := 0) b0 (k := 11) (by decide) (by decide)
    rwa [UInt32.zero_or, UInt32.toNat_zero, Nat.zero_add] at hor
  rw [UInt32.toNat_or, UInt32.toNat_or, UInt32.toNat_or, hhigh, hsecond, hthird,
    UInt8.toNat_toUInt32, ← Nat.two_pow_add_eq_or_of_lt (i := 19) (by omega),
    show 2 ^ 19 * (b1.toNat % 2 ^ 3) + 2 ^ 11 * b0.toNat =
      2 ^ 11 * (2 ^ 8 * (b1.toNat % 2 ^ 3) + b0.toNat) by omega,
    ← Nat.two_pow_add_eq_or_of_lt (i := 11) (by omega),
    show 2 ^ 11 * (2 ^ 8 * (b1.toNat % 2 ^ 3) + b0.toNat) + 2 ^ 8 * (b3.toNat % 2 ^ 3) =
      2 ^ 8 * (2 ^ 3 * (2 ^ 8 * (b1.toNat % 2 ^ 3) + b0.toNat) + b3.toNat % 2 ^ 3) by omega,
    ← Nat.two_pow_add_eq_or_of_lt (i := 8) (by omega), armthumb_address]
  omega

/-- A pair with another address. -/
theorem armthumb_withAddress (b0 b1 b2 b3 : UInt8) (v : Nat) :
    armthumbSplit.withAddress (leNat [b0, b1, b2, b3]) v =
      v / 2 ^ 11 % 2 ^ 11 + 2 ^ 11 * (b1.toNat / 2 ^ 3) + 2 ^ 16 * (v % 2 ^ 11) +
        2 ^ 27 * (b3.toNat / 2 ^ 3) := by
  have h0 := b0.toNat_lt
  have h1 := b1.toNat_lt
  have h2 := b2.toNat_lt
  have hlow : setField (leNat [b0, b1, b2, b3]) 16 11 v =
      b0.toNat + 2 ^ 8 * b1.toNat + 2 ^ 16 * (v % 2 ^ 11) + 2 ^ 27 * (b3.toNat / 2 ^ 3) := by
    rw [setField_eq, leNat_four]
    omega
  have hlt : v % 2 ^ 11 < 2 ^ 11 := Nat.mod_lt _ (by decide)
  show setField (setField _ 16 11 v) 0 11 (v / 2 ^ 11) = _
  rw [hlow, setField_eq]
  generalize v % 2 ^ 11 = low at hlt ⊢
  generalize v / 2 ^ 11 % 2 ^ 11 = high
  omega

theorem armthumb_unit {pos t : UInt32} (b0 b1 b2 b3 : UInt8) (h1 : b1 &&& 0xF8 = 0xF0)
    (h3 : b3 &&& 0xF8 = 0xF8)
    (ht : t = ((((b1.toUInt32 &&& 0x07) <<< 19) ||| (b0.toUInt32 <<< 11) |||
      ((b3.toUInt32 &&& 0x07) <<< 8) ||| b2.toUInt32) <<< 1 - pos) >>> 1) :
    Bcj.armThumb.ofWord (armthumbSplit.withAddress (leNat [b0, b1, b2, b3])
        (relocated (· - ·) 1 22 pos (armthumbSplit.address (leNat [b0, b1, b2, b3])))) =
      [(t >>> 11).toUInt8, (0xF0 : UInt8) ||| ((t >>> 19) &&& 0x07).toUInt8, t.toUInt8,
        (0xF8 : UInt8) ||| ((t >>> 8) &&& 0x07).toUInt8] := by
  have hb0 := b0.toNat_lt
  have hb1 := b1.toNat_lt
  have hb2 := b2.toNat_lt
  have hb3 := b3.toNat_lt
  have hfirst : b1.toNat / 2 ^ 3 * 2 ^ 3 = 0xF0 := by
    rw [← high_bits, h1]
    rfl
  have hsecond : b3.toNat / 2 ^ 3 * 2 ^ 3 = 0xF8 := by
    rw [← high_bits, h3]
    rfl
  have hshift : (((b1.toUInt32 &&& 0x07) <<< 19) ||| (b0.toUInt32 <<< 11) |||
      ((b3.toUInt32 &&& 0x07) <<< 8) ||| b2.toUInt32) <<< 1 =
      UInt32.ofNat (2 ^ 1 * armthumbSplit.address (leNat [b0, b1, b2, b3])) := by
    apply UInt32.toNat_inj.mp
    rw [UInt32.toNat_shiftLeft, armthumb_loaded, UInt32.toNat_ofNat',
      show (1 : UInt32).toNat % 32 = 1 from rfl, Nat.shiftLeft_eq, Nat.mul_comm]
  have ht : relocated (· - ·) 1 22 pos (armthumbSplit.address (leNat [b0, b1, b2, b3])) =
      t.toNat % 2 ^ 22 := by
    rw [ht, hshift, UInt32.toNat_shiftRight, Nat.shiftRight_eq_div_pow]
    rfl
  have hc0 : (t >>> 11).toUInt8.toNat = t.toNat / 2 ^ 11 % 256 :=
    byteAt_toNat t (k := 11) (by decide)
  have hc1 : ((0xF0 : UInt8) ||| ((t >>> 19) &&& 0x07).toUInt8).toNat =
      0xF0 + t.toNat / 2 ^ 19 % 2 ^ 3 := prefixed_bits t (k := 19) (by decide) (Or.inl rfl)
  have hc2 : t.toUInt8.toNat = t.toNat % 256 := UInt32.toNat_toUInt8 t
  have hc3 : ((0xF8 : UInt8) ||| ((t >>> 8) &&& 0x07).toUInt8).toNat =
      0xF8 + t.toNat / 2 ^ 8 % 2 ^ 3 := prefixed_bits t (k := 8) (by decide) (Or.inr rfl)
  have hhigh : t.toNat % 2 ^ 22 / 2 ^ 11 % 2 ^ 11 =
      t.toNat / 2 ^ 11 % 256 + 2 ^ 8 * (t.toNat / 2 ^ 19 % 2 ^ 3) := by omega
  have hlow : t.toNat % 2 ^ 22 % 2 ^ 11 = t.toNat % 256 + 2 ^ 8 * (t.toNat / 2 ^ 8 % 2 ^ 3) := by
    omega
  have hword : armthumbSplit.withAddress (leNat [b0, b1, b2, b3]) (t.toNat % 2 ^ 22) =
      leNat [(t >>> 11).toUInt8, (0xF0 : UInt8) ||| ((t >>> 19) &&& 0x07).toUInt8, t.toUInt8,
        (0xF8 : UInt8) ||| ((t >>> 8) &&& 0x07).toUInt8] := by
    rw [armthumb_withAddress, leNat_four, hc0, hc1, hc2, hc3, hhigh, hlow]
    omega
  rw [ht, hword]
  exact @Bcj.ofWord_word .armThumb _ rfl

/-- A pair written byte by byte. -/
theorem store_pair {α : Type} (done l : Bytes) (b0 b1 b2 b3 x0 x1 x2 x3 : UInt8)
    (k : Bytes → Res α) :
    (do
      let buf ← store (done ++ (b0 :: b1 :: b2 :: b3 :: l)) (done.length + 1) x1
      let buf ← store buf done.length x0
      let buf ← store buf (done.length + 3) x3
      let buf ← store buf (done.length + 2) x2
      k buf) = k (done ++ (x0 :: x1 :: x2 :: x3 :: l)) := by
  have s0 : (store (done ++ (b0 :: x1 :: b2 :: b3 :: l)) done.length x0 : Res Bytes) =
      .ok (done ++ (x0 :: x1 :: b2 :: b3 :: l)) := store_append (k := 0) (Nat.succ_pos _)
  rw [store_append (by simp), ok_bind]
  show (store (done ++ (b0 :: x1 :: b2 :: b3 :: l)) done.length x0 >>= _) = _
  rw [s0, ok_bind, store_append (by simp), ok_bind, store_append (by simp), ok_bind]
  rfl

theorem armthumbStep_eq (hu : u.length = 4) (hw : (done ++ (u ++ rest)).length < wordSize)
    (h : armthumbSplit.code.isBranch (leNat u) = true) :
    armthumbStep start (done ++ (u ++ rest)) done.length =
      .ok (done ++ (Bcj.armThumb.convertUnit (· - ·) start done.length u ++ rest),
        done.length + 4) := by
  obtain ⟨b0, b1, b2, b3, rfl⟩ := four_bytes hu
  obtain ⟨h1, h3⟩ := (armthumb_isBranch b0 b1 b2 b3).mp h
  simp only [List.length_append, List.length_cons, List.length_nil] at hw
  have a1 : (add64 done.length 1 : Res Nat) = .ok (done.length + 1) := add64_ok (by omega)
  have a2 : (add64 done.length 2 : Res Nat) = .ok (done.length + 2) := add64_ok (by omega)
  have a3 : (add64 done.length 3 : Res Nat) = .ok (done.length + 3) := add64_ok (by omega)
  have a4 : (add64 (done.length + 2) 2 : Res Nat) = .ok (done.length + 4) := add64_ok (by omega)
  have i0 : (index (done ++ ([b0, b1, b2, b3] ++ rest)) done.length : Res UInt8) = .ok b0 :=
    index_append done _ 0
  have i1 : (index ([b0, b1, b2, b3] ++ rest) 1 : Res UInt8) = .ok b1 := rfl
  have i2 : (index ([b0, b1, b2, b3] ++ rest) 2 : Res UInt8) = .ok b2 := rfl
  have i3 : (index ([b0, b1, b2, b3] ++ rest) 3 : Res UInt8) = .ok b3 := rfl
  simp only [armthumbStep, a1, a2, a3, a4, ok_bind, i0, index_append, i1, i2, i3]
  rw [if_neg (not_not.mpr h1), if_neg (not_not.mpr h3), Bcj.convertUnit_single rfl h]
  refine (store_pair done rest b0 b1 b2 b3 _ _ _ _ _).trans ?_
  exact congrArg (fun u => Except.ok (done ++ (u ++ rest), done.length + 4))
    (armthumb_unit b0 b1 b2 b3 h1 h3 rfl).symm

theorem armthumbStep_skip (hu : u.length = 4) (hw : (done ++ (u ++ rest)).length < wordSize)
    (h : ¬ armthumbSplit.code.isBranch (leNat u) = true) :
    armthumbStep start (done ++ (u ++ rest)) done.length =
      .ok (done ++ (u ++ rest), done.length + 2) := by
  obtain ⟨b0, b1, b2, b3, rfl⟩ := four_bytes hu
  simp only [List.length_append, List.length_cons, List.length_nil] at hw
  have a1 : (add64 done.length 1 : Res Nat) = .ok (done.length + 1) := add64_ok (by omega)
  have a2 : (add64 done.length 2 : Res Nat) = .ok (done.length + 2) := add64_ok (by omega)
  have a3 : (add64 done.length 3 : Res Nat) = .ok (done.length + 3) := add64_ok (by omega)
  have i1 : (index ([b0, b1, b2, b3] ++ rest) 1 : Res UInt8) = .ok b1 := rfl
  have i3 : (index ([b0, b1, b2, b3] ++ rest) 3 : Res UInt8) = .ok b3 := rfl
  simp only [armthumbStep, a1, a2, a3, ok_bind, index_append, i1, i3]
  by_cases h1 : b1 &&& 0xF8 = 0xF0
  · have h3 : b3 &&& 0xF8 ≠ 0xF8 := fun h3 => h ((armthumb_isBranch b0 b1 b2 b3).mpr ⟨h1, h3⟩)
    rw [if_neg (not_not.mpr h1), if_pos h3]
    rfl
  · rw [if_pos h1]
    rfl

end Steps

end Squashfs.Xz
