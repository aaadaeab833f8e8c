import Mathlib.Algebra.CharP.Two
import Mathlib.Algebra.Polynomial.Div
import Mathlib.Algebra.Field.ZMod
import Mathlib.Data.List.GetD
import Mathlib.Data.ZMod.Basic
import Mathlib.RingTheory.Coprime.Lemmas
import Mathlib.Tactic.Ring
import Squashfs.Foundation.LittleEndian

/-!
# Cyclic redundancy codes, reflected

A byte string sent least significant bit first is a polynomial over two elements, its first bit the
coefficient of the highest power (`message`); a reflected register of `w` bits is one too, its bit 0
the coefficient of `X ^ (w - 1)` (`register`). One turn of the bit loop multiplies by `X` and takes
the remainder by the generator (`register_crcBit`), so after a string the register holds the
remainder of `message` and of what it began with (**`register_crcBytes`**).

**`burst_detected`**: two strings that differ, and only in `w` consecutive bits, leave different
registers.
-/

namespace Squashfs.Foundation

open Polynomial

/-! ## Bits as coefficients -/

/-- A bit as an element of the field of two. -/
def bitOfBool (b : Bool) : ZMod 2 := if b then 1 else 0

theorem bitOfBool_xor (a b : Bool) : bitOfBool (a ^^ b) = bitOfBool a + bitOfBool b := by
  cases a <;> cases b <;> decide

theorem bitOfBool_inj {a b : Bool} (h : bitOfBool a = bitOfBool b) : a = b := by
  cases a <;> cases b <;> first | rfl | exact absurd h (by decide)

/-- The polynomial whose coefficients below `n` are the bits. -/
noncomputable def bitPoly (n : Nat) (bits : Nat → Bool) : (ZMod 2)[X] :=
  ∑ i ∈ Finset.range n, monomial i (bitOfBool (bits i))

theorem coeff_bitPoly (n : Nat) (bits : Nat → Bool) (d : Nat) :
    (bitPoly n bits).coeff d = if d < n then bitOfBool (bits d) else 0 := by
  rw [bitPoly, finsetSum_coeff]
  simp only [coeff_monomial, Finset.sum_ite_eq', Finset.mem_range]

theorem bitPoly_xor (n : Nat) (a b : Nat → Bool) :
    bitPoly n (fun i => a i ^^ b i) = bitPoly n a + bitPoly n b := by
  ext d
  rw [coeff_add, coeff_bitPoly, coeff_bitPoly, coeff_bitPoly]
  split
  · exact bitOfBool_xor _ _
  · rw [add_zero]

theorem bitPoly_degree_lt (n : Nat) (bits : Nat → Bool) : (bitPoly n bits).degree < n := by
  rw [degree_lt_iff_coeff_zero]
  intro m hm
  rw [coeff_bitPoly, if_neg (Nat.not_lt.mpr hm)]

/-! ## The register -/

/-- The register's polynomial: bit 0 is the coefficient of the highest power. -/
noncomputable def register (w r : Nat) : (ZMod 2)[X] := bitPoly w fun i => r.testBit (w - 1 - i)

/-- The generator of a code whose polynomial below `X ^ w` is `p`, reflected. -/
noncomputable def generator (w p : Nat) : (ZMod 2)[X] := X ^ w + register w p

/-- One turn of the bit loop. -/
def crcBit (p r : Nat) : Nat := if r.testBit 0 then (r >>> 1) ^^^ p else r >>> 1

/-- Eight turns, after the byte is added to the low end. -/
def crcByte (p r : Nat) (b : UInt8) : Nat := (crcBit p)^[8] (r ^^^ b.toNat)

def crcBytes (p init : Nat) (data : Bytes) : Nat := data.foldl (crcByte p) init

section Register

variable {w p r : Nat}

theorem register_xor (w r s : Nat) : register w (r ^^^ s) = register w r + register w s := by
  rw [register, register, register, ← bitPoly_xor]
  congr 1
  funext i
  rw [Nat.testBit_xor]

theorem register_inj {s : Nat} (hr : r < 2 ^ w) (hs : s < 2 ^ w)
    (h : register w r = register w s) : r = s := by
  refine Nat.eq_of_testBit_eq fun i => ?_
  by_cases hi : i < w
  · have hcoeff := congrArg (coeff · (w - 1 - i)) h
    simp only [register, coeff_bitPoly] at hcoeff
    rw [if_pos (by omega), if_pos (by omega), show w - 1 - (w - 1 - i) = i by omega] at hcoeff
    exact bitOfBool_inj hcoeff
  · have hpow : 2 ^ w ≤ 2 ^ i := Nat.pow_le_pow_right (by decide) (by omega)
    rw [Nat.testBit_lt_two_pow (by omega), Nat.testBit_lt_two_pow (by omega)]

/-- Shifting down multiplies by `X`, but for the bit that falls out. -/
theorem register_shift (hw : 0 < w) (hr : r < 2 ^ w) :
    X * register w r = register w (r >>> 1) + C (bitOfBool (r.testBit 0)) * X ^ w := by
  ext d
  rw [coeff_add, coeff_C_mul, coeff_X_pow]
  cases d with
  | zero =>
    rw [coeff_X_mul_zero, register, coeff_bitPoly, if_pos hw, if_neg (by omega), mul_zero, add_zero,
      Nat.testBit_shiftRight, show 1 + (w - 1 - 0) = w by omega, Nat.testBit_lt_two_pow hr]
    rfl
  | succ d =>
    rw [coeff_X_mul, register, register, coeff_bitPoly, coeff_bitPoly]
    rcases Nat.lt_trichotomy (d + 1) w with h | h | h
    · rw [if_pos (by omega), if_pos h, if_neg (by omega), mul_zero, add_zero,
        Nat.testBit_shiftRight, show 1 + (w - 1 - (d + 1)) = w - 1 - d by omega]
    · rw [if_pos (by omega), if_neg (by omega), if_pos h, mul_one, zero_add,
        show w - 1 - d = 0 by omega]
    · rw [if_neg (by omega), if_neg (by omega), if_neg (by omega), mul_zero, add_zero]

/-- **One turn of the bit loop** multiplies by `X`, up to a multiple of the generator. -/
theorem register_crcBit (hw : 0 < w) (hr : r < 2 ^ w) : X * register w r =
    register w (crcBit p r) + C (bitOfBool (r.testBit 0)) * generator w p := by
  rw [register_shift hw hr, crcBit, generator]
  cases h : r.testBit 0 with
  | false => simp [bitOfBool]
  | true =>
    have hself : register w p + register w p = 0 := CharTwo.add_self_eq_zero _
    simp only [bitOfBool, if_true, register_xor, map_one, one_mul]
    rw [add_assoc, add_left_comm (register w p), hself, add_zero]

theorem crcBit_lt (hp : p < 2 ^ w) (hr : r < 2 ^ w) : crcBit p r < 2 ^ w := by
  have hshift : r >>> 1 < 2 ^ w := by
    rw [Nat.shiftRight_eq_div_pow]
    exact Nat.lt_of_le_of_lt (Nat.div_le_self _ _) hr
  unfold crcBit
  split
  · exact Nat.xor_lt_two_pow hshift hp
  · exact hshift

theorem iterate_crcBit (hw : 0 < w) (hp : p < 2 ^ w) (hr : r < 2 ^ w) (k : Nat) :
    (crcBit p)^[k] r < 2 ^ w ∧
      generator w p ∣ X ^ k * register w r - register w ((crcBit p)^[k] r) := by
  induction k with
  | zero => exact ⟨hr, by simp⟩
  | succ k ih =>
    obtain ⟨hlt, hdvd⟩ := ih
    rw [Function.iterate_succ_apply']
    refine ⟨crcBit_lt hp hlt, ?_⟩
    have hturn : generator w p ∣ X * register w ((crcBit p)^[k] r) -
        register w (crcBit p ((crcBit p)^[k] r)) := by
      rw [register_crcBit (p := p) hw hlt, add_sub_cancel_left]
      exact dvd_mul_left _ _
    have hsum := dvd_add (dvd_mul_of_dvd_right hdvd X) hturn
    rw [mul_sub, sub_add_sub_cancel, ← mul_assoc, ← pow_succ'] at hsum
    exact hsum

/-- A byte at the low end of the register is the top of its polynomial. -/
theorem register_byte (hw : 8 ≤ w) (b : UInt8) :
    register w b.toNat = X ^ (w - 8) * register 8 b.toNat := by
  ext d
  rw [coeff_X_pow_mul', register, register, coeff_bitPoly, coeff_bitPoly]
  have hb := b.toNat_lt
  by_cases hd : w - 8 ≤ d
  · rw [if_pos hd]
    by_cases hlt : d < w
    · rw [if_pos hlt, if_pos (by omega), show 8 - 1 - (d - (w - 8)) = w - 1 - d by omega]
    · rw [if_neg hlt, if_neg (by omega)]
  · have hpow : 2 ^ 8 ≤ 2 ^ (w - 1 - d) := Nat.pow_le_pow_right (by decide) (by omega)
    rw [if_neg hd, if_pos (by omega), Nat.testBit_lt_two_pow (by omega)]
    rfl

theorem crcByte_step (hw : 8 ≤ w) (hp : p < 2 ^ w) (hr : r < 2 ^ w) (b : UInt8) :
    crcByte p r b < 2 ^ w ∧
      generator w p ∣ X ^ 8 * register w r + X ^ w * register 8 b.toNat -
        register w (crcByte p r b) := by
  have hb : b.toNat < 2 ^ w :=
    Nat.lt_of_lt_of_le b.toNat_lt (Nat.pow_le_pow_right (by decide) hw)
  obtain ⟨hlt, hdvd⟩ := iterate_crcBit (by omega) hp (Nat.xor_lt_two_pow hr hb) 8
  refine ⟨hlt, ?_⟩
  rw [register_xor, mul_add, register_byte hw, ← mul_assoc, ← pow_add,
    Nat.add_sub_cancel' hw] at hdvd
  exact hdvd

/-! ## The message -/

/-- Bit `k` of a byte string in the order it is sent. -/
def transmitted (data : Bytes) (k : Nat) : Bool := (data.getD (k / 8) 0).toNat.testBit (k % 8)

/-- The polynomial of a byte string: what is sent first has the highest power. -/
noncomputable def message (data : Bytes) : (ZMod 2)[X] :=
  bitPoly (8 * data.length) fun d => transmitted data (8 * data.length - 1 - d)

theorem message_append (data : Bytes) (b : UInt8) :
    message (data ++ [b]) = X ^ 8 * message data + register 8 b.toNat := by
  ext d
  rw [coeff_add, coeff_X_pow_mul', message, message, register, coeff_bitPoly, coeff_bitPoly,
    coeff_bitPoly, List.length_append, List.length_singleton]
  rcases Nat.lt_or_ge d 8 with hd | hd
  · have hlast : transmitted (data ++ [b]) (8 * (data.length + 1) - 1 - d) =
        b.toNat.testBit (8 - 1 - d) := by
      rw [transmitted, show (8 * (data.length + 1) - 1 - d) / 8 = data.length by omega,
        show (8 * (data.length + 1) - 1 - d) % 8 = 8 - 1 - d by omega,
        List.getD_eq_getElem?_getD, List.getElem?_concat_length]
      rfl
    rw [if_pos (by omega), if_neg (by omega), if_pos hd, zero_add, hlast]
  · rw [if_pos hd, if_neg (by omega : ¬ d < 8), add_zero]
    by_cases hlt : d < 8 * (data.length + 1)
    · have hbefore : transmitted (data ++ [b]) (8 * (data.length + 1) - 1 - d) =
          transmitted data (8 * data.length - 1 - (d - 8)) := by
        have hk : 8 * (data.length + 1) - 1 - d = 8 * data.length - 1 - (d - 8) := by omega
        rw [hk, transmitted, transmitted, List.getD_eq_getElem?_getD,
          List.getElem?_append_left (by omega), List.getD_eq_getElem?_getD]
      rw [if_pos hlt, if_pos (by omega), hbefore]
    · rw [if_neg hlt, if_neg (by omega)]

theorem crcBytes_step (hw : 8 ≤ w) (hp : p < 2 ^ w) {init : Nat} (hinit : init < 2 ^ w)
    (data : Bytes) : crcBytes p init data < 2 ^ w ∧
      generator w p ∣ X ^ (8 * data.length) * register w init + X ^ w * message data -
        register w (crcBytes p init data) := by
  induction data using List.reverseRecOn with
  | nil =>
    refine ⟨hinit, ?_⟩
    have hnone : message [] = 0 := rfl
    rw [hnone, List.length_nil, Nat.mul_zero, pow_zero, one_mul, mul_zero, add_zero]
    show generator w p ∣ register w init - register w init
    rw [sub_self]
    exact dvd_zero _
  | append_singleton data b ih =>
    obtain ⟨hlt, hdvd⟩ := ih
    obtain ⟨hlt', hdvd'⟩ := crcByte_step hw hp hlt b
    rw [crcBytes, List.foldl_append]
    refine ⟨hlt', ?_⟩
    have hsum := dvd_add (dvd_mul_of_dvd_right hdvd (X ^ 8)) hdvd'
    rw [message_append, List.length_append, List.length_singleton]
    refine hsum.trans (dvd_of_eq ?_)
    show _ = X ^ (8 * (data.length + 1)) * register w init +
      X ^ w * (X ^ 8 * message data + register 8 b.toNat) -
        register w (crcByte p (crcBytes p init data) b)
    ring

theorem generator_monic (w p : Nat) : (generator w p).Monic :=
  monic_X_pow_add (bitPoly_degree_lt w _)

theorem generator_degree (w p : Nat) : (generator w p).degree = w := by
  rw [generator, degree_add_eq_left_of_degree_lt, degree_X_pow]
  rw [degree_X_pow]
  exact bitPoly_degree_lt w _

/-- **The register is the remainder** of the message, and of what the register began with. -/
theorem register_crcBytes (hw : 8 ≤ w) (hp : p < 2 ^ w) {init : Nat} (hinit : init < 2 ^ w)
    (data : Bytes) : register w (crcBytes p init data) =
      (X ^ (8 * data.length) * register w init + X ^ w * message data) %ₘ generator w p := by
  obtain ⟨-, q, hq⟩ := crcBytes_step hw hp hinit data
  refine (div_modByMonic_unique q _ (generator_monic w p) ⟨?_, ?_⟩).2.symm
  · rw [← hq]
    ring
  · rw [generator_degree]
    exact bitPoly_degree_lt w _

/-! ## Bursts -/

/-- Byte strings of one length with the same bits are the same. -/
theorem transmitted_ext {data data' : Bytes} (hlen : data.length = data'.length)
    (h : ∀ k < 8 * data.length, transmitted data k = transmitted data' k) : data = data' := by
  refine List.ext_getElem hlen fun i hi hi' => ?_
  apply UInt8.toNat_inj.mp
  refine Nat.eq_of_testBit_eq fun j => ?_
  by_cases hj : j < 8
  · have hbit := h (8 * i + j) (by omega)
    rw [transmitted, transmitted, show (8 * i + j) / 8 = i by omega,
      show (8 * i + j) % 8 = j by omega, List.getD_eq_getElem _ _ hi,
      List.getD_eq_getElem _ _ hi'] at hbit
    exact hbit
  · have hpow : 2 ^ 8 ≤ 2 ^ j := Nat.pow_le_pow_right (by decide) (by omega)
    rw [Nat.testBit_lt_two_pow (Nat.lt_of_lt_of_le (UInt8.toNat_lt _) hpow),
      Nat.testBit_lt_two_pow (Nat.lt_of_lt_of_le (UInt8.toNat_lt _) hpow)]

/-- Two byte strings of one length that differ, and only in `w` consecutive bits as sent. -/
structure Burst (w : Nat) (data data' : Bytes) : Prop where
  length : data.length = data'.length
  differ : data ≠ data'
  confined : ∃ s, ∀ k, transmitted data k ≠ transmitted data' k → s ≤ k ∧ k < s + w

theorem coeff_message_sub {data data' : Bytes} (hlen : data.length = data'.length) (d : Nat) :
    (message data - message data').coeff d = if d < 8 * data.length then
      bitOfBool (transmitted data (8 * data.length - 1 - d) ^^
        transmitted data' (8 * data.length - 1 - d)) else 0 := by
  rw [CharTwo.sub_eq_add, message, message, ← hlen, ← bitPoly_xor, coeff_bitPoly]

/-- A generator with a constant term has no power of `X` in common with anything. -/
theorem generator_coprime (hp : (generator w p).coeff 0 = 1) (k : Nat) :
    IsCoprime (generator w p) (X ^ k) := by
  refine IsCoprime.pow_right ⟨1, -(generator w p).divX, ?_⟩
  have hsplit := divX_mul_X_add (generator w p)
  rw [hp, map_one] at hsplit
  nth_rewrite 1 [← hsplit]
  ring

/-- **A burst no longer than the register is detected.** -/
theorem burst_detected (hw : 8 ≤ w) (hp : p < 2 ^ w) (hone : (generator w p).coeff 0 = 1)
    {init : Nat} (hinit : init < 2 ^ w) {data data' : Bytes} (h : Burst w data data') :
    crcBytes p init data ≠ crcBytes p init data' := by
  intro heq
  obtain ⟨hlen, hdiffer, s, hconfined⟩ := h
  have hsame : ∀ k, (k < s ∨ s + w ≤ k) →
      bitOfBool (transmitted data k ^^ transmitted data' k) = 0 := by
    intro k hk
    have hbit : transmitted data k = transmitted data' k := by
      by_contra hne
      have := hconfined k hne
      omega
    rw [hbit, Bool.xor_self]
    rfl
  have hdvd : generator w p ∣ X ^ w * (message data - message data') := by
    have hfirst := (crcBytes_step hw hp hinit data).2
    have hsecond := (crcBytes_step hw hp hinit data').2
    rw [heq, hlen] at hfirst
    have hsub := dvd_sub hfirst hsecond
    rw [sub_sub_sub_cancel_right, add_sub_add_left_eq_sub, ← mul_sub] at hsub
    exact hsub
  -- The error is a power of `X` and a polynomial too small for the generator to divide.
  have hlow : X ^ (8 * data.length - w - s) ∣ message data - message data' := by
    rw [X_pow_dvd_iff]
    intro d hd
    rw [coeff_message_sub hlen, if_pos (by omega)]
    exact hsame _ (Or.inr (by omega))
  obtain ⟨e, he⟩ := hlow
  have hdegree : e.degree < (generator w p).degree := by
    rw [generator_degree, degree_lt_iff_coeff_zero]
    intro k hk
    have hcoeff := coeff_message_sub hlen (k + (8 * data.length - w - s))
    rw [he, coeff_X_pow_mul] at hcoeff
    rw [hcoeff]
    split
    · exact hsame _ (Or.inl (by omega))
    · rfl
  rw [he, ← mul_assoc, ← pow_add] at hdvd
  have hzero : e = 0 := eq_zero_of_dvd_of_degree_lt
    ((generator_coprime hone _).dvd_of_dvd_mul_left hdvd) hdegree
  rw [hzero, mul_zero] at he
  refine hdiffer (transmitted_ext hlen fun k hk => ?_)
  have hcoeff := coeff_message_sub hlen (8 * data.length - 1 - k)
  rw [he, coeff_zero, if_pos (by omega),
    show 8 * data.length - 1 - (8 * data.length - 1 - k) = k by omega] at hcoeff
  have hxor : (transmitted data k ^^ transmitted data' k) = false :=
    bitOfBool_inj hcoeff.symm
  simpa using hxor

end Register

end Squashfs.Foundation
