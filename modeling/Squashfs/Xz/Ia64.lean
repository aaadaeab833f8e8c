import Squashfs.Xz.BranchSteps

/-!
# The IA-64 step

About one turn of `ia64` (`src/xz.rs:466-503`). A bundle is sixteen bytes: a template and three
slots of 41 bits. The converter reads the six bytes a slot lies in, and writes all six back; as a
number the bundle has only the slot's address changed (`ia64Slot_eq`), so its slots do not disturb
each other. **`ia64Step_eq`**: the step relocates the branches of the bundle.
-/

namespace Squashfs.Xz

open Foundation
open Foundation.BranchCode

/-! ## Loading and storing a slot's bytes -/

theorem ofNat_shift {k : Nat} (hk : k < 64) : (UInt64.ofNat k).toNat % 64 = k := by
  rw [UInt64.toNat_ofNat']
  omega

theorem ia64Load_eq {buf : Bytes} {pos : Nat} (h : pos + 6 ≤ buf.length)
    (hw : buf.length < wordSize) :
    ∃ instr, ia64Load buf pos = .ok instr ∧ instr.toNat = leNat ((buf.drop pos).take 6) := by
  have hfold : ∀ m ≤ 6, ∃ instr : UInt64, (List.range m).foldlM (fun instr j => do
      return instr ||| ((← index buf (← add64 pos j)).toUInt64 <<< UInt64.ofNat (8 * j)))
      (0 : UInt64) = (.ok instr : Res UInt64) ∧ instr.toNat = leNat ((buf.drop pos).take m) := by
    intro m hm
    induction m with
    | zero => exact ⟨0, rfl, by rw [List.take_zero]; rfl⟩
    | succ m ih =>
      obtain ⟨instr, hinstr, hnat⟩ := ih (by omega)
      have hlt : pos + m < buf.length := by omega
      have hget : (buf.drop pos)[m]? = some buf[pos + m] := by
        rw [List.getElem?_drop, List.getElem?_eq_getElem hlt]
      have hlen : ((buf.drop pos).take m).length = m := window_length (by omega)
      have hsmall := leNat_lt ((buf.drop pos).take m)
      have hbyte := buf[pos + m].toNat_lt
      have hfits : buf[pos + m].toNat <<< (8 * m) < 2 ^ 64 := by
        rw [Nat.shiftLeft_eq]
        calc buf[pos + m].toNat * 2 ^ (8 * m) < 2 ^ 8 * 2 ^ (8 * m) :=
              Nat.mul_lt_mul_of_pos_right hbyte (Nat.two_pow_pos _)
          _ = 2 ^ (8 + 8 * m) := (Nat.pow_add 2 _ _).symm
          _ ≤ 2 ^ 64 := Nat.pow_le_pow_right (by decide) (by omega)
      refine ⟨instr ||| (buf[pos + m].toUInt64 <<< UInt64.ofNat (8 * m)), ?_, ?_⟩
      · rw [List.range_succ, List.foldlM_append, hinstr, ok_bind, List.foldlM_cons,
          add64_ok (by omega), ok_bind, index_ok hlt]
        rfl
      · rw [hlen, pow256] at hsmall
        rw [List.take_add_one, hget, Option.toList_some, leNat_append, hlen, leNat, leNat,
          Nat.mul_zero, Nat.add_zero, UInt64.toNat_or, UInt64.toNat_shiftLeft,
          ofNat_shift (by omega), UInt8.toNat_toUInt64, Nat.mod_eq_of_lt hfits, hnat,
          or_shiftLeft hsmall, pow256]
  exact hfold 6 (Nat.le_refl 6)

theorem ia64Store_eq {buf : Bytes} {pos : Nat} (h : pos + 6 ≤ buf.length)
    (hw : buf.length < wordSize) (instr : UInt64) :
    ia64Store buf pos instr = .ok (paste buf pos (leBytes 6 instr.toNat)) := by
  have hfold : ∀ m ≤ 6, (List.range m).foldlM (fun buf j => do
      store buf (← add64 pos j) (instr >>> UInt64.ofNat (8 * j)).toUInt8) buf =
      (.ok (paste buf pos (leBytes m instr.toNat)) : Res Bytes) := by
    intro m hm
    induction m with
    | zero =>
      rw [leBytes, paste_nil]
      rfl
    | succ m ih =>
      have hlen : (paste buf pos (leBytes m instr.toNat)).length = buf.length :=
        paste_length (by rw [leBytes_length]; omega)
      have hbyte : (instr >>> UInt64.ofNat (8 * m)).toUInt8 =
          UInt8.ofNat (instr.toNat / 256 ^ m) := by
        apply UInt8.toNat_inj.mp
        rw [UInt64.toNat_toUInt8, UInt64.toNat_shiftRight, ofNat_shift (by omega),
          UInt8.toNat_ofNat', Nat.shiftRight_eq_div_pow, pow256]
      have hnext := @paste_paste _ buf _ [UInt8.ofNat (instr.toNat / 256 ^ m)] _
        (show pos + (leBytes m instr.toNat).length ≤ buf.length by rw [leBytes_length]; omega)
      rw [leBytes_length, paste_singleton (by omega), ← leBytes_last] at hnext
      rw [List.range_succ, List.foldlM_append, ih (by omega), ok_bind, List.foldlM_cons,
        add64_ok (by omega), ok_bind, store_ok (by omega), hbyte, hnext]
      rfl
  exact hfold 6 (Nat.le_refl 6)

/-! ## One slot -/

/-- The address bits cleared, and others put in their place. -/
theorem ia64_replaced (n t : Nat) (hn : n < 2 ^ 64) :
    ((n &&& 0xFFFFFFEE00001FFF) ||| (t % 2 ^ 20) <<< 13) ||| (t / 2 ^ 20 % 2 ^ 1) <<< 36 =
      setField (setField n 13 20 t) 36 1 (t / 2 ^ 20) := by
  have hmask : 0xFFFFFFEE00001FFF =
      (2 ^ 13 - 1) * 2 ^ 0 ||| (2 ^ 3 - 1) * 2 ^ 33 ||| (2 ^ 27 - 1) * 2 ^ 37 := rfl
  rw [hmask, Nat.and_or_distrib_left, Nat.and_or_distrib_left, and_mask, and_mask, and_mask]
  refine Nat.eq_of_testBit_eq fun i => ?_
  simp only [testBit_setField, Nat.testBit_or, Nat.testBit_mul_two_pow, testBit_field,
    Nat.testBit_shiftLeft, Nat.testBit_mod_two_pow]
  have htop : 64 ≤ i → n.testBit i = false := fun hi =>
    Nat.testBit_lt_two_pow (Nat.lt_of_lt_of_le hn (Nat.pow_le_pow_right (by decide) hi))
  rcases show i < 13 ∨ (13 ≤ i ∧ i < 33) ∨ (33 ≤ i ∧ i < 36) ∨ i = 36 ∨ (37 ≤ i ∧ i < 64) ∨ 64 ≤ i
    by omega with hi | hi | hi | hi | hi | hi
  all_goals grind

/-- The bits below the slot, and the slot with another address. -/
theorem ia64_placed (x t res : Nat) :
    x % 2 ^ res ||| setField (setField (x >>> res) 13 20 t) 36 1 (t / 2 ^ 20) <<< res =
      setField (setField x (res + 13) 20 t) (res + 36) 1 (t / 2 ^ 20) := by
  refine Nat.eq_of_testBit_eq fun i => ?_
  simp only [testBit_setField, Nat.testBit_or, Nat.testBit_shiftLeft, Nat.testBit_shiftRight,
    Nat.testBit_mod_two_pow]
  rcases Nat.lt_or_ge i res with hi | hi
  · rw [decide_eq_true hi, decide_eq_false (by omega : ¬ i ≥ res), Bool.true_and, Bool.false_and,
      Bool.or_false, if_neg (show ¬ (res + 36 ≤ i ∧ i < res + 36 + 1) by omega),
      if_neg (show ¬ (res + 13 ≤ i ∧ i < res + 13 + 20) by omega)]
  · obtain ⟨k, rfl⟩ := Nat.exists_eq_add_of_le hi
    have hsign : (res + 36 ≤ res + k ∧ res + k < res + 36 + 1) ↔ (36 ≤ k ∧ k < 36 + 1) := by omega
    have hlow : (res + 13 ≤ res + k ∧ res + k < res + 13 + 20) ↔ (13 ≤ k ∧ k < 13 + 20) := by omega
    rw [decide_eq_false (by omega : ¬ res + k < res), decide_eq_true hi, Bool.false_and,
      Bool.false_or, Bool.true_and]
    simp only [hsign, hlow, Nat.add_sub_cancel_left, Nat.add_sub_add_left]

/-- The slot's bits, shifted down, with another address. -/
theorem ia64_norm (norm : UInt64) (t : UInt32) :
    (((norm &&& ~~~((0x8FFFFF : UInt64) <<< 13)) ||| ((t &&& 0x0FFFFF).toUInt64 <<< 13)) |||
      ((t &&& 0x100000).toUInt64 <<< 16)).toNat =
      setField (setField norm.toNat 13 20 t.toNat) 36 1 (t.toNat / 2 ^ 20) := by
  have ht := t.toNat_lt
  have hlow : ((t &&& 0x0FFFFF).toUInt64 <<< 13).toNat = (t.toNat % 2 ^ 20) <<< 13 := by
    have hand : (t &&& 0x0FFFFF).toNat = t.toNat % 2 ^ 20 := by
      rw [UInt32.toNat_and]
      exact Nat.and_two_pow_sub_one_eq_mod t.toNat 20
    rw [UInt64.toNat_shiftLeft, UInt32.toNat_toUInt64, hand]
    show (t.toNat % 2 ^ 20) <<< 13 % 2 ^ 64 = _
    rw [Nat.shiftLeft_eq]
    omega
  have hhigh : ((t &&& 0x100000).toUInt64 <<< 16).toNat = (t.toNat / 2 ^ 20 % 2 ^ 1) <<< 36 := by
    have hand : (t &&& 0x100000).toNat = t.toNat / 2 ^ 20 % 2 ^ 1 * 2 ^ 20 := by
      rw [UInt32.toNat_and, ← field_eq_div_mod]
      exact and_mask t.toNat 20 1
    rw [UInt64.toNat_shiftLeft, UInt32.toNat_toUInt64, hand]
    show (t.toNat / 2 ^ 20 % 2 ^ 1 * 2 ^ 20) <<< 16 % 2 ^ 64 = _
    rw [Nat.shiftLeft_eq, Nat.shiftLeft_eq]
    omega
  rw [UInt64.toNat_or, UInt64.toNat_or, UInt64.toNat_and, hlow, hhigh]
  exact ia64_replaced norm.toNat t.toNat norm.toNat_lt

/-- What is written back of a slot's six bytes. -/
theorem ia64_written {instr : UInt64} {res : Nat} (hres : res < 8) (hlt : instr.toNat < 2 ^ 48)
    {norm' : UInt64} {t : UInt32}
    (hnorm : norm'.toNat =
      setField (setField (instr.toNat >>> res) 13 20 t.toNat) 36 1 (t.toNat / 2 ^ 20)) :
    ((instr &&& UInt64.ofNat (2 ^ res - 1)) ||| (norm' <<< UInt64.ofNat res)).toNat =
      setField (setField instr.toNat (res + 13) 20 t.toNat) (res + 36) 1 (t.toNat / 2 ^ 20) := by
  have hpow : 2 ^ res ≤ 2 ^ 8 := Nat.pow_le_pow_right (by decide) (by omega)
  have hsmall : norm'.toNat < 2 ^ 48 := by
    rw [hnorm]
    refine setField_lt (setField_lt ?_ (by decide)) (by decide)
    rw [Nat.shiftRight_eq_div_pow]
    exact Nat.lt_of_le_of_lt (Nat.div_le_self _ _) hlt
  have hfits : norm'.toNat <<< res % 2 ^ 64 = norm'.toNat <<< res := by
    refine Nat.mod_eq_of_lt ?_
    rw [Nat.shiftLeft_eq]
    calc norm'.toNat * 2 ^ res < 2 ^ 48 * 2 ^ res :=
          Nat.mul_lt_mul_of_pos_right hsmall (Nat.two_pow_pos _)
      _ ≤ 2 ^ 48 * 2 ^ 8 := Nat.mul_le_mul_left _ hpow
      _ ≤ 2 ^ 64 := by decide
  rw [UInt64.toNat_or, UInt64.toNat_and, UInt64.toNat_shiftLeft, ofNat_shift (by omega), hfits,
    UInt64.toNat_ofNat', Nat.mod_eq_of_lt (by omega), Nat.and_two_pow_sub_one_eq_mod, hnorm,
    ia64_placed]

/-- A field of a slot, read off its bits shifted down. -/
theorem ia64_part {norm : UInt64} {x lo res : Nat}
    (hnorm : norm.toNat = field x lo 48 >>> res) (k len : Nat) (hlen : res + k + len ≤ 48) :
    ((norm >>> UInt64.ofNat k) &&& UInt64.ofNat (2 ^ len - 1)).toNat =
      field x (lo + (res + k)) len := by
  have hpow : 2 ^ len ≤ 2 ^ 48 := Nat.pow_le_pow_right (by decide) (by omega)
  rw [UInt64.toNat_and, UInt64.toNat_shiftRight, ofNat_shift (by omega), UInt64.toNat_ofNat',
    Nat.mod_eq_of_lt (by omega), Nat.and_two_pow_sub_one_eq_mod, hnorm, ← Nat.shiftRight_add,
    ← field_field hlen]
  rfl

theorem ia64_isBranch {slot : Nat} (x : Nat) : (ia64Split slot).code.isBranch x = true ↔
    ia64Branches slot (field x 0 5) = true ∧ field x (5 + 41 * slot + 37) 4 = 5 ∧
      field x (5 + 41 * slot + 9) 3 = 0 := by
  have hfields : (ia64Split slot).code.isBranch x = (ia64Branches slot (field x 0 5) &&
      (field x (5 + 41 * slot + 37) 4 == 5 && (field x (5 + 41 * slot + 9) 3 == 0 && true))) := rfl
  rw [hfields, Bool.and_true, Bool.and_eq_true, Bool.and_eq_true, beq_iff_eq, beq_iff_eq]

/-- The address a slot carries, as the converter puts it together, in place. -/
theorem ia64_loaded {norm : UInt64} {x lo res slot : Nat}
    (hnorm : norm.toNat = field x lo 48 >>> res) (hres : res < 8)
    (hslot : lo + res = 5 + 41 * slot) :
    (((norm >>> 13) &&& 0x0FFFFF).toUInt32 ||| (((norm >>> 36) &&& 1).toUInt32 <<< 20)) <<< 4 =
      UInt32.ofNat (2 ^ 4 * (ia64Split slot).address x) := by
  have hlow : ((norm >>> 13) &&& 0x0FFFFF).toNat = field x (5 + 41 * slot + 13) 20 := by
    rw [← hslot, Nat.add_assoc]
    exact ia64_part hnorm 13 20 (by omega)
  have hhigh : ((norm >>> 36) &&& 1).toNat = field x (5 + 41 * slot + 36) 1 := by
    rw [← hslot, Nat.add_assoc]
    exact ia64_part hnorm 36 1 (by omega)
  have hlowlt := field_lt x (5 + 41 * slot + 13) 20
  have hhighlt := field_lt x (5 + 41 * slot + 36) 1
  have haddress : (ia64Split slot).address x =
      field x (5 + 41 * slot + 13) 20 + 2 ^ 20 * field x (5 + 41 * slot + 36) 1 := rfl
  apply UInt32.toNat_inj.mp
  rw [haddress, UInt32.toNat_shiftLeft, UInt32.toNat_or, UInt32.toNat_shiftLeft,
    UInt64.toNat_toUInt32, UInt64.toNat_toUInt32, hlow, hhigh, UInt32.toNat_ofNat']
  show (field x (5 + 41 * slot + 13) 20 % 2 ^ 32 |||
    (field x (5 + 41 * slot + 36) 1 % 2 ^ 32) <<< 20 % 2 ^ 32) <<< 4 % 2 ^ 32 = _
  have hshift : (field x (5 + 41 * slot + 36) 1 % 2 ^ 32) <<< 20 % 2 ^ 32 =
      field x (5 + 41 * slot + 36) 1 <<< 20 := by
    rw [Nat.shiftLeft_eq, Nat.shiftLeft_eq]
    omega
  rw [hshift, Nat.mod_eq_of_lt (show field x (5 + 41 * slot + 13) 20 < 2 ^ 32 by omega),
    or_shiftLeft hlowlt, Nat.shiftLeft_eq, Nat.mul_comm]

/-- A slot's six bytes with another address are the bundle with another address. -/
theorem ia64_within {x lo res slot v : Nat} (hres : res < 8) (hslot : lo + res = 5 + 41 * slot) :
    setField x lo 48 (setField (setField (field x lo 48) (res + 13) 20 v) (res + 36) 1
      (v / 2 ^ 20)) = (ia64Split slot).withAddress x v := by
  have hfirst : setField x lo 48 (setField (field x lo 48) (res + 13) 20 v) =
      setField x (5 + 41 * slot + 13) 20 v := by
    rw [setField_within (by omega), ← hslot, Nat.add_assoc]
  have hlt : setField (field x lo 48) (res + 13) 20 v < 2 ^ 48 :=
    setField_lt (field_lt x lo 48) (by omega)
  have hback : field (setField x (5 + 41 * slot + 13) 20 v) lo 48 =
      setField (field x lo 48) (res + 13) 20 v := by
    rw [← hfirst, field_setField, Nat.mod_eq_of_lt hlt]
  show _ = setField (setField x (5 + 41 * slot + 13) 20 v) (5 + 41 * slot + 36) 1 (v / 2 ^ 20)
  rw [← hback, ← setField_setField x lo 48 (setField (field x lo 48) (res + 13) 20 v), hfirst,
    setField_within (by omega), ← hslot, Nat.add_assoc, Nat.add_assoc]

/-- **One slot.** The bundle keeps all but the slot's address, and that too if the slot is no
branch. -/
theorem ia64Slot_eq {start : UInt32} {done rest w : Bytes} {slot : Nat} {mask : UInt32}
    (hlen : w.length = 16) (hw : (done ++ (w ++ rest)).length < wordSize) (hslot : slot < 3)
    (hmask : (mask >>> UInt32.ofNat slot) &&& 1 = 0 ↔
      ia64Branches slot (field (leNat w) 0 5) = false) :
    ia64Slot start done.length mask (done ++ (w ++ rest)) slot =
      .ok (done ++ (leBytes 16 ((ia64Split slot).code.move
        (relocated (· - ·) 4 21 (start + UInt32.ofNat done.length)) (leNat w)) ++ rest)) := by
  have hself : leBytes 16 (leNat w) = w := by rw [← hlen, leBytes_leNat]
  have hstay : ∀ r, ¬ (ia64Split slot).code.isBranch (leNat w) = true →
      leBytes 16 ((ia64Split slot).code.move r (leNat w)) = w := by
    intro r h
    rw [move, if_neg h, hself]
  have hres : (5 + 41 * slot) % 8 < 8 := Nat.mod_lt _ (by decide)
  have hbyte : (5 + 41 * slot) / 8 ≤ 10 := by omega
  have hsplit : 8 * ((5 + 41 * slot) / 8) + (5 + 41 * slot) % 8 = 5 + 41 * slot :=
    Nat.div_add_mod _ 8
  simp only [List.length_append, hlen] at hw
  unfold ia64Slot
  by_cases hbit : (mask >>> UInt32.ofNat slot) &&& 1 = 0
  · have hnot : ¬ (ia64Split slot).code.isBranch (leNat w) = true := fun h =>
      Bool.false_ne_true ((hmask.mp hbit).symm.trans ((ia64_isBranch _).mp h).1)
    rw [if_pos hbit, hstay _ hnot]
    rfl
  rw [if_neg hbit]
  dsimp only
  generalize (5 + 41 * slot) / 8 = bytePos at hbyte hsplit
  generalize (5 + 41 * slot) % 8 = res at hres hsplit
  obtain ⟨instr, hload, hinstr⟩ := @ia64Load_eq (done ++ (w ++ rest)) (done.length + bytePos)
    (by simp only [List.length_append, hlen]; omega)
    (by simp only [List.length_append, hlen]; omega)
  have hnumber : instr.toNat = field (leNat w) (8 * bytePos) 48 := by
    rw [hinstr, List.drop_length_add_append, List.drop_append_of_le_length (by omega),
      List.take_append_of_le_length (by rw [List.length_drop]; omega), leNat_window (by omega)]
  have hlt : instr.toNat < 2 ^ 48 := hnumber ▸ field_lt _ _ _
  rw [add64_ok (by omega), ok_bind, hload, ok_bind, shr64, guarded_ok (by omega), ok_bind]
  have hnorm : (instr >>> UInt64.ofNat res).toNat = field (leNat w) (8 * bytePos) 48 >>> res := by
    rw [UInt64.toNat_shiftRight, ofNat_shift (by omega), hnumber]
  generalize instr >>> UInt64.ofNat res = norm at hnorm
  have htemplate : ia64Branches slot (field (leNat w) 0 5) = true := by
    rw [← Bool.not_eq_false]
    exact mt hmask.mpr hbit
  have hopcode : ((norm >>> 37) &&& 0x0F).toNat = field (leNat w) (5 + 41 * slot + 37) 4 := by
    rw [← hsplit, Nat.add_assoc]
    exact ia64_part hnorm 37 4 (by omega)
  have hreg : ((norm >>> 9) &&& 0x07).toNat = field (leNat w) (5 + 41 * slot + 9) 3 := by
    rw [← hsplit, Nat.add_assoc]
    exact ia64_part hnorm 9 3 (by omega)
  have hcond : ((norm >>> 37) &&& 0x0F = 0x05 ∧ (norm >>> 9) &&& 0x07 = 0) ↔
      (ia64Split slot).code.isBranch (leNat w) = true := by
    rw [ia64_isBranch, ← hopcode, ← hreg, ← UInt64.toNat_inj, ← UInt64.toNat_inj]
    exact ⟨fun h => ⟨htemplate, h⟩, fun h => h.2⟩
  by_cases hbranch : (ia64Split slot).code.isBranch (leNat w) = true
  · rw [if_pos (hcond.mpr hbranch), ia64_loaded hnorm hres hsplit]
    generalize ht : (UInt32.ofNat (2 ^ 4 * (ia64Split slot).address (leNat w)) -
      (start + UInt32.ofNat done.length)) >>> 4 = t
    have hmoved : relocated (· - ·) 4 21 (start + UInt32.ofNat done.length)
        ((ia64Split slot).address (leNat w)) = t.toNat % 2 ^ (20 + 1) := by
      rw [← ht, UInt32.toNat_shiftRight, Nat.shiftRight_eq_div_pow]
      rfl
    have hone : ∀ k < 8, ((1 : UInt64) <<< UInt64.ofNat k).toNat = 2 ^ k := by decide
    have hwritten := @ia64_written instr res hres hlt
      (((norm &&& ~~~((0x8FFFFF : UInt64) <<< 13)) |||
        ((t &&& 0x0FFFFF).toUInt64 <<< 13)) ||| ((t &&& 0x100000).toUInt64 <<< 16)) t
      (by rw [ia64_norm, hnorm, hnumber])
    rw [shl64, guarded_ok (by omega), ok_bind, hone res hres, sub64_ok Nat.one_le_two_pow, ok_bind,
      shl64, guarded_ok (by omega), ok_bind,
      ia64Store_eq (by simp only [List.length_append, hlen]; omega)
        (by simp only [List.length_append, hlen]; omega),
      hwritten, paste_middle (by rw [leBytes_length]; omega), paste_leBytes (by omega), hlen,
      hnumber, ia64_within hres hsplit, move, if_pos hbranch]
    show _ = Except.ok (done ++ (leBytes 16 ((ia64Split slot).withAddress (leNat w)
      (relocated (· - ·) 4 21 (start + UInt32.ofNat done.length)
        ((ia64Split slot).address (leNat w)))) ++ rest))
    have hlow := (ia64Split slot).withAddress_mod (leNat w) t.toNat
    rw [hmoved]
    exact congrArg (fun x => Except.ok (done ++ (leBytes 16 x ++ rest))) hlow.symm
  · rw [if_neg (mt hcond.mp hbranch), hstay _ hbranch]
    rfl

/-! ## A bundle -/

/-- The template's slots, as the converter looks them up. -/
theorem ia64_mask (x : Nat) {slot : Nat} :
    (BRANCH_TABLE.getD (field x 0 5) 0 >>> UInt32.ofNat slot) &&& 1 = 0 ↔
      ia64Branches slot (field x 0 5) = false := by
  rw [ia64Branches, bne_eq_false_iff_eq]

/-- No slot's address reaches the template. -/
theorem ia64_template (r : Nat → Nat) (slot x : Nat) :
    field ((ia64Split slot).code.move r x) 0 5 = field x 0 5 := by
  unfold move
  split
  · exact Split.field_with (by simp only [ia64Split, Away]; omega)
      (by simp only [ia64Split, Away]; omega) _ _
  · rfl

/-- The slots one after the other, under the template that none of them changes. -/
theorem ia64Slots_eq {start : UInt32} {done rest : Bytes} {template : Nat} {slots : List Nat}
    (hslots : ∀ slot ∈ slots, slot < 3) {x : Nat} (hx : x < 2 ^ 128)
    (htemplate : field x 0 5 = template)
    (hw : done.length + (16 + rest.length) < wordSize) :
    slots.foldlM (ia64Slot start done.length (BRANCH_TABLE.getD template 0))
        (done ++ (leBytes 16 x ++ rest)) =
      .ok (done ++ (leBytes 16 (moves (slots.map fun slot => (ia64Split slot).code)
        (relocated (· - ·) 4 21 (start + UInt32.ofNat done.length)) x) ++ rest)) := by
  induction slots generalizing x with
  | nil => rfl
  | cons slot slots ih =>
    obtain ⟨hslot, hslots⟩ := List.forall_mem_cons.mp hslots
    have hnumber : leNat (leBytes 16 x) = x := leNat_leBytes (by rw [pow256]; exact hx)
    have hmask : (BRANCH_TABLE.getD template 0 >>> UInt32.ofNat slot) &&& 1 = 0 ↔
        ia64Branches slot (field (leNat (leBytes 16 x)) 0 5) = false := by
      rw [hnumber, ← htemplate]
      exact ia64_mask x
    have hmoved : (ia64Split slot).code.move
        (relocated (· - ·) 4 21 (start + UInt32.ofNat done.length)) x < 2 ^ 128 := by
      refine move_lt (fun i hi => ?_) hx
      rcases Bool.or_eq_true_iff.mp hi with h | h
      · have := of_decide_eq_true h
        simp only [ia64Split] at this
        omega
      · have := of_decide_eq_true h
        simp only [ia64Split] at this
        omega
    rw [List.foldlM_cons, ia64Slot_eq (leBytes_length 16 x)
      (by simp only [List.length_append, leBytes_length]; exact hw) hslot hmask, ok_bind, hnumber,
      ih hslots hmoved (by rw [ia64_template, htemplate])]
    rfl

theorem ia64Step_eq {start : UInt32} {done rest u : Bytes} (hu : u.length = 16)
    (hw : (done ++ (u ++ rest)).length < wordSize) :
    ia64Step start (done ++ (u ++ rest)) done.length =
      .ok (done ++ (Bcj.ia64.convertUnit (· - ·) start done.length u ++ rest)) := by
  obtain ⟨b, hb⟩ : ∃ b, u[0]? = some b := ⟨u[0], List.getElem?_eq_getElem (by omega)⟩
  have hindex : (index (done ++ (u ++ rest)) done.length : Res UInt8) = .ok b := by
    refine (index_append done (u ++ rest) 0).trans (index_eq_ok.mpr ?_)
    rw [List.getElem?_append_left (by omega), hb]
  have htemplate : (b &&& 0x1F).toNat = field (leNat u) 0 5 := by
    have hbyte := leNat_byte hb
    have hand : (b &&& 0x1F).toNat = b.toNat % 2 ^ 5 := by
      rw [UInt8.toNat_and]
      exact Nat.and_two_pow_sub_one_eq_mod b.toNat 5
    rw [hand, field_eq_div_mod, ← hbyte]
    omega
  have htable : (index BRANCH_TABLE (field (leNat u) 0 5) : Res UInt32) =
      .ok (BRANCH_TABLE.getD (field (leNat u) 0 5) 0) := by
    have hlt : field (leNat u) 0 5 < BRANCH_TABLE.length := field_lt _ _ _
    rw [index_ok hlt, List.getD_eq_getElem _ _ hlt]
  have hnumber := leNat_lt u
  rw [hu, pow256] at hnumber
  simp only [List.length_append, hu] at hw
  have hslots := @ia64Slots_eq start done rest _ (List.range 3)
    (fun slot h => List.mem_range.mp h) _ hnumber rfl hw
  rw [← hu, leBytes_leNat, hu] at hslots
  rw [ia64Step, hindex, ok_bind, htemplate, htable, ok_bind, hslots, Bcj.convertUnit,
    show Bcj.ia64.ahead = 0 from rfl, UInt32.add_zero]
  rfl

end Squashfs.Xz
