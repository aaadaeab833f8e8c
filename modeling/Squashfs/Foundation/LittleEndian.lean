import Mathlib.Tactic.Ring
import Squashfs.Foundation.Outcome

/-!
# Little-endian numbers

`leNat` reads a byte string as a little-endian number and `leBytes n` writes a number on `n`
bytes. They undo each other (`leNat_leBytes`, `leBytes_leNat`), and `u16le`, `u32le` and `u64le`
are the same at the three word widths (`u16le_u16Bytes`, `u16Bytes_u16le` and their siblings).
`u16At`, `u32At` and `u64At` read a word inside a buffer, and panic where it does not hold one.
-/

namespace Squashfs.Foundation

/-- A string of bytes. -/
abbrev Bytes := List UInt8

/-- The number a byte string spells, least significant byte first. -/
def leNat : Bytes → Nat
  | [] => 0
  | b :: bs => b.toNat + 256 * leNat bs

/-- `v` on `n` bytes, least significant first (its low `8 n` bits). -/
def leBytes : Nat → Nat → Bytes
  | 0, _ => []
  | n + 1, v => UInt8.ofNat v :: leBytes n (v / 256)

@[simp] theorem leBytes_length (n v : Nat) : (leBytes n v).length = n := by
  induction n generalizing v with
  | zero => rfl
  | succ n ih => rw [leBytes, List.length_cons, ih]

theorem leNat_lt (bs : Bytes) : leNat bs < 256 ^ bs.length := by
  induction bs with
  | nil => exact Nat.one_pos
  | cons b bs ih =>
    have hb := b.toNat_lt
    rw [leNat, List.length_cons, Nat.pow_succ]
    omega

theorem leNat_leBytes {n v : Nat} (h : v < 256 ^ n) : leNat (leBytes n v) = v := by
  induction n generalizing v with
  | zero =>
    rw [Nat.pow_zero] at h
    rw [leBytes, leNat]
    omega
  | succ n ih =>
    rw [Nat.pow_succ] at h
    rw [leBytes, leNat, ih (Nat.div_lt_of_lt_mul (by rwa [Nat.mul_comm])), UInt8.toNat_ofNat']
    omega

theorem leBytes_leNat (bs : Bytes) : leBytes bs.length (leNat bs) = bs := by
  induction bs with
  | nil => rfl
  | cons b bs ih =>
    have hb := b.toNat_lt
    have hhead : UInt8.ofNat (b.toNat + 256 * leNat bs) = b := by
      apply UInt8.toNat_inj.mp
      rw [UInt8.toNat_ofNat']
      omega
    have htail : (b.toNat + 256 * leNat bs) / 256 = leNat bs := by omega
    rw [leNat, List.length_cons, leBytes, hhead, htail, ih]

/-- The byte of place value `256 ^ k` is the string's byte number `k`. -/
theorem leNat_byte {bs : Bytes} {k : Nat} {b : UInt8} (h : bs[k]? = some b) :
    leNat bs / 256 ^ k % 256 = b.toNat := by
  induction bs generalizing k with
  | nil => cases h
  | cons c bs ih =>
    have hc := c.toNat_lt
    cases k with
    | zero =>
      rw [List.getElem?_cons_zero] at h
      cases h
      rw [Nat.pow_zero, Nat.div_one, leNat]
      omega
    | succ k =>
      rw [List.getElem?_cons_succ] at h
      have htail : (c.toNat + 256 * leNat bs) / 256 = leNat bs := by omega
      rw [leNat, Nat.pow_succ, Nat.mul_comm (256 ^ k) 256, ← Nat.div_div_eq_div_mul, htail]
      exact ih h

/-! ## The three widths -/

/-- `u16::from_le_bytes`. -/
def u16le (b : Bytes) : UInt16 := UInt16.ofNat (leNat b)

/-- `u32::from_le_bytes`. -/
def u32le (b : Bytes) : UInt32 := UInt32.ofNat (leNat b)

/-- `u64::from_le_bytes`. -/
def u64le (b : Bytes) : UInt64 := UInt64.ofNat (leNat b)

/-- `u32::from_be_bytes`. -/
def u32be (b : Bytes) : UInt32 := u32le b.reverse

/-- `u16::to_le_bytes`. -/
def u16Bytes (v : UInt16) : Bytes := leBytes 2 v.toNat

/-- `u32::to_le_bytes`. -/
def u32Bytes (v : UInt32) : Bytes := leBytes 4 v.toNat

/-- `u64::to_le_bytes`. -/
def u64Bytes (v : UInt64) : Bytes := leBytes 8 v.toNat

/-- `u32::to_be_bytes`. -/
def u32BytesBe (v : UInt32) : Bytes := (u32Bytes v).reverse

@[simp] theorem u16Bytes_length (v : UInt16) : (u16Bytes v).length = 2 := leBytes_length _ _

@[simp] theorem u32Bytes_length (v : UInt32) : (u32Bytes v).length = 4 := leBytes_length _ _

@[simp] theorem u64Bytes_length (v : UInt64) : (u64Bytes v).length = 8 := leBytes_length _ _

@[simp] theorem u32BytesBe_length (v : UInt32) : (u32BytesBe v).length = 4 := by
  rw [u32BytesBe, List.length_reverse, u32Bytes_length]

@[simp] theorem u16le_u16Bytes (v : UInt16) : u16le (u16Bytes v) = v := by
  rw [u16le, u16Bytes, leNat_leBytes v.toNat_lt, UInt16.ofNat_toNat]

@[simp] theorem u32le_u32Bytes (v : UInt32) : u32le (u32Bytes v) = v := by
  rw [u32le, u32Bytes, leNat_leBytes v.toNat_lt, UInt32.ofNat_toNat]

@[simp] theorem u64le_u64Bytes (v : UInt64) : u64le (u64Bytes v) = v := by
  rw [u64le, u64Bytes, leNat_leBytes v.toNat_lt, UInt64.ofNat_toNat]

theorem u16le_toNat {b : Bytes} (h : b.length = 2) : (u16le b).toNat = leNat b := by
  have hlt : leNat b < 2 ^ 16 := by
    have := leNat_lt b
    rw [h] at this
    exact this
  rw [u16le, UInt16.toNat_ofNat', Nat.mod_eq_of_lt hlt]

theorem u32le_toNat {b : Bytes} (h : b.length = 4) : (u32le b).toNat = leNat b := by
  have hlt : leNat b < 2 ^ 32 := by
    have := leNat_lt b
    rw [h] at this
    exact this
  rw [u32le, UInt32.toNat_ofNat', Nat.mod_eq_of_lt hlt]

theorem u64le_toNat {b : Bytes} (h : b.length = 8) : (u64le b).toNat = leNat b := by
  have hlt : leNat b < 2 ^ 64 := by
    have := leNat_lt b
    rw [h] at this
    exact this
  rw [u64le, UInt64.toNat_ofNat', Nat.mod_eq_of_lt hlt]

theorem u16Bytes_u16le {b : Bytes} (h : b.length = 2) : u16Bytes (u16le b) = b := by
  rw [u16Bytes, u16le_toNat h, ← h, leBytes_leNat]

theorem u32Bytes_u32le {b : Bytes} (h : b.length = 4) : u32Bytes (u32le b) = b := by
  rw [u32Bytes, u32le_toNat h, ← h, leBytes_leNat]

theorem u64Bytes_u64le {b : Bytes} (h : b.length = 8) : u64Bytes (u64le b) = b := by
  rw [u64Bytes, u64le_toNat h, ← h, leBytes_leNat]

/-! ## Words inside a buffer -/

section At

variable {ε : Type}

/-- `u16::from_le_bytes(b[i..i + 2].try_into().unwrap())`. -/
def u16At (b : Bytes) (i : Nat) : Outcome ε UInt16 := do
  let s ← slice b i (← add64 i 2)
  return u16le (← array 2 s)

/-- `u32::from_le_bytes(b[i..i + 4].try_into().unwrap())`. -/
def u32At (b : Bytes) (i : Nat) : Outcome ε UInt32 := do
  let s ← slice b i (← add64 i 4)
  return u32le (← array 4 s)

/-- `u64::from_le_bytes(b[i..i + 8].try_into().unwrap())`. -/
def u64At (b : Bytes) (i : Nat) : Outcome ε UInt64 := do
  let s ← slice b i (← add64 i 8)
  return u64le (← array 8 s)

theorem slice_window_ok {b : Bytes} {i n : Nat} (h : i + n ≤ b.length) :
    (slice b i (i + n) : Outcome ε Bytes) = .ok ((b.drop i).take n) := by
  rw [slice_ok (Nat.le_add_right i n) h, Nat.add_sub_cancel_left]

theorem window_length {b : Bytes} {i n : Nat} (h : i + n ≤ b.length) :
    ((b.drop i).take n).length = n := by
  rw [List.length_take, List.length_drop]
  omega

theorem u16At_ok {b : Bytes} {i : Nat} (h : i + 2 ≤ b.length) (hw : i + 2 < wordSize) :
    (u16At b i : Outcome ε UInt16) = .ok (u16le ((b.drop i).take 2)) := by
  unfold u16At
  rw [add64_ok hw, ok_bind, slice_window_ok h, ok_bind, array_ok (window_length h)]
  rfl

theorem u32At_ok {b : Bytes} {i : Nat} (h : i + 4 ≤ b.length) (hw : i + 4 < wordSize) :
    (u32At b i : Outcome ε UInt32) = .ok (u32le ((b.drop i).take 4)) := by
  unfold u32At
  rw [add64_ok hw, ok_bind, slice_window_ok h, ok_bind, array_ok (window_length h)]
  rfl

theorem u64At_ok {b : Bytes} {i : Nat} (h : i + 8 ≤ b.length) (hw : i + 8 < wordSize) :
    (u64At b i : Outcome ε UInt64) = .ok (u64le ((b.drop i).take 8)) := by
  unfold u64At
  rw [add64_ok hw, ok_bind, slice_window_ok h, ok_bind, array_ok (window_length h)]
  rfl

/-! ### Words spelled at a position -/

/-- `b` has the word `w` at position `i`. -/
def Spells (b : Bytes) (i : Nat) (w : Bytes) : Prop := b.drop i = w ++ b.drop (i + w.length)

variable {b w v : Bytes} {i n : Nat}

theorem spells_nil (b : Bytes) (i : Nat) : Spells b i [] := rfl

theorem spells_self (w : Bytes) : Spells w 0 w := by
  rw [Spells, Nat.zero_add, List.drop_length, List.append_nil, List.drop_zero]

theorem spells_append : Spells b i (w ++ v) ↔ Spells b i w ∧ Spells b (i + w.length) v := by
  have hrest : (b.drop i).drop w.length = b.drop (i + w.length) := List.drop_drop
  unfold Spells
  rw [List.append_assoc, List.length_append, ← Nat.add_assoc]
  constructor
  · intro h
    have hv : b.drop (i + w.length) = v ++ b.drop (i + w.length + v.length) := by
      rw [← hrest, h, List.drop_left]
    exact ⟨by rw [hv]; exact h, hv⟩
  · rintro ⟨hw, hv⟩
    rw [← hv]
    exact hw

theorem spells_cons {x : UInt8} : Spells b i (x :: w) ↔ b[i]? = some x ∧ Spells b (i + 1) w := by
  have hhead : Spells b i [x] ↔ b[i]? = some x := by
    unfold Spells
    constructor
    · intro h
      rw [← List.head?_drop, h]
      rfl
    · intro h
      obtain ⟨hlt, rfl⟩ := List.getElem?_eq_some_iff.mp h
      exact List.drop_eq_getElem_cons hlt
  rw [← List.singleton_append, spells_append, hhead]
  rfl

theorem spells_of_drop (h : b.drop i = w ++ v) : Spells b i w ∧ b.drop (i + w.length) = v := by
  have hrest : b.drop (i + w.length) = v := by
    rw [← List.drop_drop, h, List.drop_left]
  exact ⟨by rw [Spells, hrest]; exact h, hrest⟩

theorem Spells.le (h : Spells b i w) (hw : w ≠ []) : i + w.length ≤ b.length := by
  have hlen := congrArg List.length h
  have hpos := List.length_pos_of_ne_nil hw
  rw [List.length_append, List.length_drop, List.length_drop] at hlen
  omega

theorem Spells.window (h : Spells b i w) : (b.drop i).take w.length = w := by
  rw [h, List.take_left]

theorem spells_window (h : i + n ≤ b.length) : Spells b i ((b.drop i).take n) := by
  unfold Spells
  rw [window_length h, ← List.drop_drop, List.take_append_drop]

/-- A buffer is the word it spells from its beginning to its end. -/
theorem spells_all : Spells b i w ∧ i + w.length = b.length ↔ i ≤ b.length ∧ b.drop i = w := by
  constructor
  · rintro ⟨h, hlen⟩
    refine ⟨by omega, ?_⟩
    rw [h, hlen, List.drop_length, List.append_nil]
  · rintro ⟨hi, rfl⟩
    have hlen : i + (b.drop i).length = b.length := by
      rw [List.length_drop]
      omega
    refine ⟨?_, hlen⟩
    unfold Spells
    rw [hlen, List.drop_length, List.append_nil]

theorem slice_eq_ok_spells {j : Nat} {s : Bytes} :
    (slice b i j : Outcome ε Bytes) = .ok s ↔
      j ≤ b.length ∧ Spells b i s ∧ i + s.length = j := by
  rw [slice_eq_ok]
  constructor
  · rintro ⟨⟨hij, hj⟩, rfl⟩
    have hfit : i + (j - i) ≤ b.length := by omega
    have hlen := window_length hfit
    exact ⟨hj, spells_window hfit, by omega⟩
  · rintro ⟨hj, hs, rfl⟩
    refine ⟨⟨Nat.le_add_right _ _, hj⟩, ?_⟩
    rw [Nat.add_sub_cancel_left, hs.window]

theorem getSlice_eq_some_spells {j : Nat} {s : Bytes} :
    getSlice b i j = some s ↔ j ≤ b.length ∧ Spells b i s ∧ i + s.length = j := by
  rw [getSlice_eq_some]
  exact (@slice_eq_ok Unit _ b s i j).symm.trans slice_eq_ok_spells

theorem u16At_eq_ok {x : UInt16} :
    (u16At b i : Outcome ε UInt16) = .ok x ↔ i + 2 < wordSize ∧ Spells b i (u16Bytes x) := by
  constructor
  · intro h
    unfold u16At at h
    obtain ⟨j, hj, h⟩ := bind_eq_ok.mp h
    obtain ⟨s, hs, h⟩ := bind_eq_ok.mp h
    obtain ⟨s', hs', hx⟩ := bind_eq_ok.mp h
    obtain ⟨hlt, rfl⟩ := add64_eq_ok.mp hj
    obtain ⟨-, hs, hlen⟩ := slice_eq_ok_spells.mp hs
    obtain ⟨hlen', rfl⟩ := array_eq_ok.mp hs'
    cases hx
    rw [u16Bytes_u16le hlen']
    exact ⟨hlt, hs⟩
  · rintro ⟨hlt, hs⟩
    have hfit := hs.le (List.ne_nil_of_length_eq_add_one (u16Bytes_length x))
    rw [u16Bytes_length] at hfit
    have hwin := hs.window
    rw [u16Bytes_length] at hwin
    rw [u16At_ok hfit hlt, hwin, u16le_u16Bytes]

theorem u32At_eq_ok {x : UInt32} :
    (u32At b i : Outcome ε UInt32) = .ok x ↔ i + 4 < wordSize ∧ Spells b i (u32Bytes x) := by
  constructor
  · intro h
    unfold u32At at h
    obtain ⟨j, hj, h⟩ := bind_eq_ok.mp h
    obtain ⟨s, hs, h⟩ := bind_eq_ok.mp h
    obtain ⟨s', hs', hx⟩ := bind_eq_ok.mp h
    obtain ⟨hlt, rfl⟩ := add64_eq_ok.mp hj
    obtain ⟨-, hs, hlen⟩ := slice_eq_ok_spells.mp hs
    obtain ⟨hlen', rfl⟩ := array_eq_ok.mp hs'
    cases hx
    rw [u32Bytes_u32le hlen']
    exact ⟨hlt, hs⟩
  · rintro ⟨hlt, hs⟩
    have hfit := hs.le (List.ne_nil_of_length_eq_add_one (u32Bytes_length x))
    rw [u32Bytes_length] at hfit
    have hwin := hs.window
    rw [u32Bytes_length] at hwin
    rw [u32At_ok hfit hlt, hwin, u32le_u32Bytes]

end At

end Squashfs.Foundation
