import Mathlib.Data.Nat.Bitwise
import Squashfs.Foundation.Blocks
import Squashfs.Foundation.LittleEndian

/-!
# Fields of bits

`field x lo len` are the bits `lo, …, lo + len - 1` of a number, and `setField` puts others in their
place. Both are known by their bits (`testBit_field`, `testBit_setField`), and so are the laws: what
is set is what is got, a field set again is set once, and fields apart do not meet.

A window of a byte string is a field of the number it spells (`leNat_window`), and a paste over the
window sets the field (`paste_leBytes`).
-/

namespace Squashfs.Foundation

/-- The `len` bits of `x` from bit `lo` on. -/
def field (x lo len : Nat) : Nat := x >>> lo % 2 ^ len

/-- `x` with the low bits of `v` as its field. -/
def setField (x lo len v : Nat) : Nat :=
  x % 2 ^ lo ||| (v % 2 ^ len) <<< lo ||| (x >>> (lo + len)) <<< (lo + len)

theorem field_lt (x lo len : Nat) : field x lo len < 2 ^ len := Nat.mod_lt _ (Nat.two_pow_pos len)

theorem testBit_field (x lo len i : Nat) :
    (field x lo len).testBit i = (decide (i < len) && x.testBit (lo + i)) := by
  rw [field, Nat.testBit_mod_two_pow, Nat.testBit_shiftRight]

theorem testBit_setField (x lo len v i : Nat) : (setField x lo len v).testBit i =
    if lo ≤ i ∧ i < lo + len then v.testBit (i - lo) else x.testBit i := by
  rw [setField, Nat.testBit_or, Nat.testBit_or, Nat.testBit_mod_two_pow, Nat.testBit_shiftLeft,
    Nat.testBit_mod_two_pow, Nat.testBit_shiftLeft, Nat.testBit_shiftRight]
  by_cases hlo : lo ≤ i
  · by_cases hhi : i < lo + len
    · rw [if_pos ⟨hlo, hhi⟩, decide_eq_false (by omega), decide_eq_true (by omega : i ≥ lo),
        decide_eq_true (by omega : i - lo < len), decide_eq_false (by omega : ¬ i ≥ lo + len)]
      simp
    · rw [if_neg (fun h => hhi h.2), decide_eq_false (by omega : ¬ i < lo),
        decide_eq_false (by omega : ¬ i - lo < len), decide_eq_true (by omega : i ≥ lo + len),
        show lo + len + (i - (lo + len)) = i by omega]
      simp
  · rw [if_neg (fun h => hlo h.1), decide_eq_true (by omega : i < lo),
      decide_eq_false (by omega : ¬ i ≥ lo), decide_eq_false (by omega : ¬ i ≥ lo + len)]
    simp

/-- Bits outside a field stay. -/
theorem testBit_setField_outside {x lo len v i : Nat} (h : i < lo ∨ lo + len ≤ i) :
    (setField x lo len v).testBit i = x.testBit i := by
  rw [testBit_setField, if_neg (by omega)]

/-- What is set is what is got. -/
theorem field_setField (x lo len v : Nat) : field (setField x lo len v) lo len = v % 2 ^ len := by
  refine Nat.eq_of_testBit_eq fun i => ?_
  rw [testBit_field, testBit_setField, Nat.testBit_mod_two_pow]
  by_cases hi : i < len
  · rw [if_pos (by omega), Nat.add_sub_cancel_left]
  · rw [decide_eq_false hi, Bool.false_and, Bool.false_and]

/-- Another field does not see it. -/
theorem field_setField_apart {x lo len v lo' len' : Nat} (h : lo' + len' ≤ lo ∨ lo + len ≤ lo') :
    field (setField x lo len v) lo' len' = field x lo' len' := by
  refine Nat.eq_of_testBit_eq fun i => ?_
  rw [testBit_field, testBit_field]
  by_cases hi : i < len'
  · rw [testBit_setField_outside (by omega)]
  · rw [decide_eq_false hi, Bool.false_and, Bool.false_and]

/-- A field set again is set once. -/
theorem setField_setField (x lo len v w : Nat) :
    setField (setField x lo len v) lo len w = setField x lo len w := by
  refine Nat.eq_of_testBit_eq fun i => ?_
  rw [testBit_setField, testBit_setField, testBit_setField]
  split <;> rfl

/-- Two fields apart are set in any order. -/
theorem setField_comm {x lo len v lo' len' w : Nat} (h : lo' + len' ≤ lo ∨ lo + len ≤ lo') :
    setField (setField x lo len v) lo' len' w = setField (setField x lo' len' w) lo len v := by
  refine Nat.eq_of_testBit_eq fun i => ?_
  simp only [testBit_setField]
  by_cases hi : lo ≤ i ∧ i < lo + len
  · rw [if_pos hi, if_neg (by omega), if_pos hi]
  · rw [if_neg hi, if_neg hi]

/-- A field set to what it is changes nothing. -/
theorem setField_field (x lo len : Nat) : setField x lo len (field x lo len) = x := by
  refine Nat.eq_of_testBit_eq fun i => ?_
  rw [testBit_setField, testBit_field]
  split
  · rename_i hi
    rw [decide_eq_true (by omega : i - lo < len), Bool.true_and, show lo + (i - lo) = i by omega]
  · rfl

theorem setField_lt {x lo len v n : Nat} (hx : x < 2 ^ n) (h : lo + len ≤ n) :
    setField x lo len v < 2 ^ n := by
  refine Nat.lt_pow_two_of_testBit _ fun i hi => ?_
  rw [testBit_setField_outside (by omega)]
  exact Nat.testBit_lt_two_pow (Nat.lt_of_lt_of_le hx (Nat.pow_le_pow_right (by decide) hi))

theorem setField_empty (x lo v : Nat) : setField x lo 0 v = x := by
  refine Nat.eq_of_testBit_eq fun i => ?_
  rw [testBit_setField_outside (by omega)]

/-- Only the low bits of what is set count. -/
theorem setField_mod (x lo len v : Nat) : setField x lo len (v % 2 ^ len) = setField x lo len v := by
  rw [setField, setField, Nat.mod_mod]

/-- A field of a field. -/
theorem field_field {x lo len lo' len' : Nat} (h : lo' + len' ≤ len) :
    field (field x lo len) lo' len' = field x (lo + lo') len' := by
  refine Nat.eq_of_testBit_eq fun i => ?_
  rw [testBit_field, testBit_field, testBit_field]
  by_cases hi : i < len'
  · rw [decide_eq_true (by omega : lo' + i < len), Bool.true_and, Nat.add_assoc]
  · rw [decide_eq_false hi, Bool.false_and, Bool.false_and]

/-- A field set inside a field. -/
theorem setField_within {x lo len lo' len' v : Nat} (h : lo' + len' ≤ len) :
    setField x lo len (setField (field x lo len) lo' len' v) = setField x (lo + lo') len' v := by
  refine Nat.eq_of_testBit_eq fun i => ?_
  rw [testBit_setField, testBit_setField, testBit_setField, testBit_field]
  by_cases hin : lo ≤ i ∧ i < lo + len
  · rw [if_pos hin, decide_eq_true (by omega : i - lo < len), Bool.true_and,
      show lo + (i - lo) = i by omega]
    by_cases hset : lo' ≤ i - lo ∧ i - lo < lo' + len'
    · rw [if_pos hset, if_pos (by omega), Nat.sub_sub]
    · rw [if_neg hset, if_neg (by omega)]
  · rw [if_neg hin, if_neg (by omega)]

theorem field_eq_div_mod (x lo len : Nat) : field x lo len = x / 2 ^ lo % 2 ^ len := by
  rw [field, Nat.shiftRight_eq_div_pow]

/-- Numbers whose bits do not meet are added by or. -/
theorem or_shiftLeft {a k : Nat} (h : a < 2 ^ k) (b : Nat) : a ||| b <<< k = a + 2 ^ k * b := by
  rw [Nat.shiftLeft_eq, Nat.mul_comm, Nat.or_comm, ← Nat.two_pow_add_eq_or_of_lt h, Nat.add_comm]

/-- Setting a field, in numbers. -/
theorem setField_eq (x lo len v : Nat) : setField x lo len v =
    x % 2 ^ lo + 2 ^ lo * (v % 2 ^ len) + 2 ^ (lo + len) * (x / 2 ^ (lo + len)) := by
  have hlow : x % 2 ^ lo < 2 ^ lo := Nat.mod_lt _ (Nat.two_pow_pos lo)
  have hboth : x % 2 ^ lo + 2 ^ lo * (v % 2 ^ len) < 2 ^ (lo + len) := by
    have hv : v % 2 ^ len + 1 ≤ 2 ^ len := Nat.mod_lt _ (Nat.two_pow_pos len)
    calc x % 2 ^ lo + 2 ^ lo * (v % 2 ^ len) < 2 ^ lo + 2 ^ lo * (v % 2 ^ len) :=
          Nat.add_lt_add_right hlow _
      _ = 2 ^ lo * (v % 2 ^ len + 1) := by rw [Nat.mul_add, Nat.mul_one, Nat.add_comm]
      _ ≤ 2 ^ lo * 2 ^ len := Nat.mul_le_mul_left _ hv
      _ = 2 ^ (lo + len) := (Nat.pow_add 2 lo len).symm
  rw [setField, or_shiftLeft hlow, or_shiftLeft hboth, Nat.shiftRight_eq_div_pow]

/-- A mask over a field keeps the field. -/
theorem and_mask (x lo len : Nat) : x &&& (2 ^ len - 1) * 2 ^ lo = field x lo len * 2 ^ lo := by
  refine Nat.eq_of_testBit_eq fun i => ?_
  rw [Nat.testBit_and, Nat.testBit_mul_two_pow, Nat.testBit_mul_two_pow, Nat.testBit_two_pow_sub_one,
    testBit_field]
  by_cases hi : lo ≤ i
  · rw [decide_eq_true hi, Bool.true_and, Bool.true_and, show lo + (i - lo) = i by omega,
      Bool.and_comm]
  · rw [decide_eq_false hi, Bool.false_and, Bool.false_and, Bool.and_false]

/-! ## Windows of bytes -/

theorem leNat_append (a b : Bytes) : leNat (a ++ b) = leNat a + 256 ^ a.length * leNat b := by
  induction a with
  | nil => rw [List.nil_append, leNat, List.length_nil, Nat.pow_zero, Nat.one_mul, Nat.zero_add]
  | cons x a ih =>
    rw [List.cons_append, leNat, leNat, ih, List.length_cons, Nat.pow_succ, Nat.mul_add,
      Nat.add_assoc, ← Nat.mul_assoc, Nat.mul_comm 256 (256 ^ a.length)]

theorem leNat_leBytes_mod (n v : Nat) : leNat (leBytes n v) = v % 256 ^ n := by
  induction n generalizing v with
  | zero => rw [leBytes, leNat, Nat.pow_zero, Nat.mod_one]
  | succ n ih =>
    have hbyte : (UInt8.ofNat v).toNat = v % 256 := UInt8.toNat_ofNat'
    rw [leBytes, leNat, ih, hbyte, Nat.pow_succ, Nat.mul_comm (256 ^ n), Nat.mod_mul]

theorem leBytes_last (n v : Nat) :
    leBytes (n + 1) v = leBytes n v ++ [UInt8.ofNat (v / 256 ^ n)] := by
  induction n generalizing v with
  | zero => rw [Nat.pow_zero, Nat.div_one]; rfl
  | succ n ih =>
    rw [leBytes, ih, leBytes, List.cons_append, Nat.div_div_eq_div_mul, Nat.pow_succ,
      Nat.mul_comm 256]

theorem pow256 (n : Nat) : 256 ^ n = 2 ^ (8 * n) := by
  rw [Nat.pow_mul]

/-- A window of a string is a field of its number. -/
theorem leNat_window {w : Bytes} {i m : Nat} (h : i + m ≤ w.length) :
    leNat ((w.drop i).take m) = field (leNat w) (8 * i) (8 * m) := by
  have htake : (w.take i).length = i := List.length_take_of_le (by omega)
  have hwindow := window_length h
  have hlow := leNat_lt (w.take i)
  have hmid := leNat_lt ((w.drop i).take m)
  rw [htake] at hlow
  rw [hwindow] at hmid
  have hrest : leNat (w.drop i) = leNat ((w.drop i).take m) + 256 ^ m * leNat ((w.drop i).drop m) := by
    have := leNat_append ((w.drop i).take m) ((w.drop i).drop m)
    rwa [List.take_append_drop, hwindow] at this
  have hall : leNat w = leNat (w.take i) + 256 ^ i * leNat (w.drop i) := by
    have := leNat_append (w.take i) (w.drop i)
    rwa [List.take_append_drop, htake] at this
  rw [field_eq_div_mod, ← pow256, ← pow256, hall,
    Nat.add_mul_div_left _ _ (Nat.pow_pos (by decide)), Nat.div_eq_of_lt hlow, Nat.zero_add, hrest,
    Nat.add_mul_mod_self_left, Nat.mod_eq_of_lt hmid]

/-- A paste into a string sets a field of its number. -/
theorem paste_leBytes {w : Bytes} {i m : Nat} (h : i + m ≤ w.length) (v : Nat) :
    paste w i (leBytes m v) = leBytes w.length (setField (leNat w) (8 * i) (8 * m) v) := by
  have htake : (w.take i).length = i := List.length_take_of_le (by omega)
  have hlow := leNat_lt (w.take i)
  rw [htake] at hlow
  have hall : leNat w = leNat (w.take i) + 256 ^ i * leNat (w.drop i) := by
    have := leNat_append (w.take i) (w.drop i)
    rwa [List.take_append_drop, htake] at this
  have hboth : (w.take (i + m)).length = i + m := List.length_take_of_le h
  have hhigh := leNat_lt (w.take (i + m))
  rw [hboth] at hhigh
  have hsplit : leNat w = leNat (w.take (i + m)) + 256 ^ (i + m) * leNat (w.drop (i + m)) := by
    have := leNat_append (w.take (i + m)) (w.drop (i + m))
    rwa [List.take_append_drop, hboth] at this
  have hmod : leNat w % 2 ^ (8 * i) = leNat (w.take i) := by
    rw [← pow256, hall, Nat.add_mul_mod_self_left, Nat.mod_eq_of_lt hlow]
  have hdiv : leNat w / 2 ^ (8 * i + 8 * m) = leNat (w.drop (i + m)) := by
    rw [← Nat.mul_add, ← pow256, hsplit, Nat.add_mul_div_left _ _ (Nat.pow_pos (by decide)),
      Nat.div_eq_of_lt hhigh, Nat.zero_add]
  have hlen : (paste w i (leBytes m v)).length = w.length := paste_length (by rwa [leBytes_length])
  have hnumber : leNat (paste w i (leBytes m v)) = setField (leNat w) (8 * i) (8 * m) v := by
    rw [paste, leNat_append, leNat_append, List.length_append, htake, leBytes_length,
      leNat_leBytes_mod, setField_eq, hmod, hdiv, ← Nat.mul_add 8, ← pow256, ← pow256, ← pow256]
  rw [← hnumber, ← hlen, leBytes_leNat]

end Squashfs.Foundation
