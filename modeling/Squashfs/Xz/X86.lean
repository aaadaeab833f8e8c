import Mathlib.Data.Nat.Bitwise
import Squashfs.Foundation.Blocks
import Squashfs.Xz.Bcj

/-!
# The x86 converter

About `x86` (`src/xz.rs:394-450`). `x86Scan` is the x86 converter as a scan of what is left of the
buffer: it carries which of the last three bytes were opcodes left alone (`History`), and either
passes a byte or converts the four bytes after an opcode. The converter is this scan, subtracting
(`x86_eq_scan`).

**`x86_bijective`**: the scan that adds undoes it, and is undone by it. A byte that decides a
conversion may be rewritten by a later one, but stays as it was in being a sign byte or not
(`Kept`), and that is all that is asked of it. **`x86_in_range`**: in every state the scan reaches,
every index, shift and table lookup is in range and the inner loop needs two turns at most.
-/

namespace Squashfs.Xz

open Foundation

/-! ## One operand -/

/-- The low bits that a correction under a mask pointing at byte `4 - n` of the operand flips. -/
def x86Ones (n : Nat) : UInt32 := UInt32.ofNat (2 ^ (32 - 8 * n) - 1)

/-- The address `f src addr`, corrected when the byte the mask points at is a sign byte. -/
def x86Corrected (f : UInt32 → UInt32 → UInt32) (addr : UInt32) (n : Nat) (src : UInt32) : UInt32 :=
  if n ≠ 0 ∧ msbyte (x86Tested n (f src addr)) then f (f src addr ^^^ x86Ones n) addr
  else f src addr

/-- The low 25 bits of an address, their sign extended over the rest. -/
def x86Extended (dest : UInt32) : UInt32 :=
  (dest &&& 0x01FFFFFF) ||| (0 - (dest &&& 0x01FFFFFF &&& 0x01000000))

/-- The operand written in the place of `src`; `addr` is the position after the instruction. -/
def x86Operand (f : UInt32 → UInt32 → UInt32) (addr : UInt32) (n : Nat) (src : UInt32) : UInt32 :=
  x86Extended (x86Corrected f addr n src)

/-- `g` undoes `f` on the 25 bits of an address, and both flip with their operand. -/
structure X86Undoes (f g : UInt32 → UInt32 → UInt32) : Prop where
  undo : ∀ s t a, t.toNat % 2 ^ 25 = (f s a).toNat % 2 ^ 25 →
    (g t a).toNat % 2 ^ 25 = s.toNat % 2 ^ 25
  flip : ∀ s a k, k = 24 ∨ k = 16 ∨ k = 8 →
    (f (f s a ^^^ UInt32.ofNat (2 ^ k - 1)) a).toNat % 2 ^ k = 2 ^ k - 1 - s.toNat % 2 ^ k

theorem low_ones (x : UInt32) {k : Nat} (hk : k = 24 ∨ k = 16 ∨ k = 8) :
    (x ^^^ UInt32.ofNat (2 ^ k - 1)).toNat % 2 ^ k = 2 ^ k - 1 - x.toNat % 2 ^ k := by
  have hm : (UInt32.ofNat (2 ^ k - 1)).toNat = 2 ^ k - 1 := by
    rcases hk with rfl | rfl | rfl <;> rfl
  have hself : (2 ^ k - 1) % 2 ^ k = 2 ^ k - 1 :=
    Nat.mod_eq_of_lt (Nat.sub_lt (Nat.two_pow_pos k) Nat.one_pos)
  rw [UInt32.toNat_xor, hm, Nat.xor_mod_two_pow, hself, xor_ones (Nat.mod_lt _ (Nat.two_pow_pos k))]

theorem x86Undoes_sub : X86Undoes (· - ·) (· + ·) where
  undo s t a h := by
    have hs := s.toNat_lt
    have ha := a.toNat_lt
    rw [UInt32.toNat_sub] at h
    rw [UInt32.toNat_add]
    omega
  flip s a k hk := flip_low s a hk

theorem x86Undoes_add : X86Undoes (· + ·) (· - ·) where
  undo s t a h := by
    have hs := s.toNat_lt
    have ha := a.toNat_lt
    have ht := t.toNat_lt
    rw [UInt32.toNat_add] at h
    rw [UInt32.toNat_sub]
    omega
  flip s a k hk := by
    have hxor := low_ones (s + a) hk
    have hs := s.toNat_lt
    have ha := a.toNat_lt
    generalize (s + a) ^^^ UInt32.ofNat (2 ^ k - 1) = t at hxor ⊢
    have ht := t.toNat_lt
    rw [UInt32.toNat_add] at hxor ⊢
    rcases hk with rfl | rfl | rfl <;> omega

/-- The extended address, in numbers. -/
theorem x86Extended_toNat (d : UInt32) : (x86Extended d).toNat =
    if d.toNat / 2 ^ 24 % 2 = 0 then d.toNat % 2 ^ 24 else 255 * 2 ^ 24 + d.toNat % 2 ^ 24 := by
  have hlow : (d &&& 0x01FFFFFF).toNat = d.toNat % 2 ^ 25 := by
    rw [UInt32.toNat_and]
    exact Nat.and_two_pow_sub_one_eq_mod d.toNat 25
  have hsign : (d &&& 0x01FFFFFF &&& 0x01000000).toNat = d.toNat / 2 ^ 24 % 2 * 2 ^ 24 := by
    rw [UInt32.toNat_and, hlow]
    have hbit : (0x01000000 : UInt32).toNat = 2 ^ 24 := rfl
    rw [hbit, Nat.and_two_pow, Nat.testBit_mod_two_pow, Nat.testBit_eq_decide_div_mod_eq]
    rcases Nat.mod_two_eq_zero_or_one (d.toNat / 2 ^ 24) with h | h <;> rw [h] <;> rfl
  unfold x86Extended
  rw [UInt32.toNat_or, UInt32.toNat_sub, hlow, hsign]
  rcases Nat.mod_two_eq_zero_or_one (d.toNat / 2 ^ 24) with h | h
  · rw [if_pos h, h]
    have : d.toNat % 2 ^ 25 = d.toNat % 2 ^ 24 := by omega
    rw [this]
    simp
  · rw [if_neg (by omega), h]
    have hsplit : d.toNat % 2 ^ 25 = 2 ^ 24 + d.toNat % 2 ^ 24 := by omega
    have hlt : d.toNat % 2 ^ 24 < 2 ^ 24 := Nat.mod_lt _ (by decide)
    have hones : (2 ^ 32 - 1 * 2 ^ 24 + (0 : UInt32).toNat) % 2 ^ 32 = 2 ^ 24 * 255 := rfl
    rw [hsplit, hones]
    have hor : 2 ^ 24 * 1 + d.toNat % 2 ^ 24 = 2 ^ 24 * 1 ||| d.toNat % 2 ^ 24 :=
      Nat.two_pow_add_eq_or_of_lt hlt 1
    rw [Nat.mul_one] at hor
    rw [hor, Nat.or_comm (2 ^ 24), Nat.or_assoc, show 2 ^ 24 ||| 2 ^ 24 * 255 = 2 ^ 24 * 255 from rfl,
      Nat.or_comm, ← Nat.two_pow_add_eq_or_of_lt hlt, Nat.mul_comm]

/-- Only the low 25 bits count. -/
theorem x86Extended_congr {d e : UInt32} (h : d.toNat % 2 ^ 25 = e.toNat % 2 ^ 25) :
    x86Extended d = x86Extended e := by
  apply UInt32.toNat_inj.mp
  rw [x86Extended_toNat, x86Extended_toNat, show d.toNat / 2 ^ 24 % 2 = e.toNat / 2 ^ 24 % 2 by omega,
    show d.toNat % 2 ^ 24 = e.toNat % 2 ^ 24 by omega]

theorem x86Extended_low (d : UInt32) : (x86Extended d).toNat % 2 ^ 25 = d.toNat % 2 ^ 25 := by
  rw [x86Extended_toNat]
  split <;> omega

theorem msbyte_eq_true {b : UInt8} : msbyte b = true ↔ b.toNat = 0 ∨ b.toNat = 255 := by
  rw [← not_iff_not, Bool.not_eq_true, msbyte_eq_false, not_or]

/-- The byte a mask points at lies in the low 24 bits; without a mask it is the last one. -/
theorem x86Tested_toNat (n : Nat) (x : UInt32) :
    (x86Tested n x).toNat = x.toNat / 2 ^ (24 - 8 * n) % 256 := byteAt_toNat _ (by omega)

/-- An extended address ends in a sign byte. -/
theorem x86Extended_sign (d : UInt32) : msbyte (x86Tested 0 (x86Extended d)) = true := by
  rw [msbyte_eq_true, x86Tested_toNat, x86Extended_toNat]
  split
  · left
    omega
  · right
    omega

/-- An address that ends in a sign byte is extended already. -/
theorem x86Extended_self {s : UInt32} (h : msbyte (x86Tested 0 s) = true) : x86Extended s = s := by
  have hs := s.toNat_lt
  rw [msbyte_eq_true, x86Tested_toNat] at h
  apply UInt32.toNat_inj.mp
  rw [x86Extended_toNat]
  split <;> omega

theorem x86Tested_congr {n : Nat} (hn : n = 1 ∨ n = 2 ∨ n = 3) {x y : UInt32}
    (h : x.toNat % 2 ^ 25 = y.toNat % 2 ^ 25) : x86Tested n x = x86Tested n y := by
  apply UInt8.toNat_inj.mp
  rw [x86Tested_toNat, x86Tested_toNat]
  rcases hn with rfl | rfl | rfl <;> omega

/-- Flipping the low bits complements the byte the mask points at. -/
theorem x86Tested_ones {n : Nat} (hn : n = 1 ∨ n = 2 ∨ n = 3) (x : UInt32) :
    msbyte (x86Tested n (x ^^^ x86Ones n)) = msbyte (x86Tested n x) := by
  have hones := low_ones x (k := 32 - 8 * n) (by omega)
  have hsame : (x86Tested n (x ^^^ x86Ones n)).toNat = 255 - (x86Tested n x).toNat := by
    rw [x86Tested_toNat, x86Tested_toNat, x86Ones]
    generalize x ^^^ UInt32.ofNat (2 ^ (32 - 8 * n) - 1) = y at hones
    rcases hn with rfl | rfl | rfl <;> omega
  have hlt := (x86Tested n x).toNat_lt
  rw [Bool.eq_iff_iff, msbyte_eq_true, msbyte_eq_true, hsame]
  omega

theorem ones_congr {n : Nat} {x y : UInt32} (h : x.toNat % 2 ^ 25 = y.toNat % 2 ^ 25) :
    (x ^^^ x86Ones n).toNat % 2 ^ 25 = (y ^^^ x86Ones n).toNat % 2 ^ 25 := by
  rw [UInt32.toNat_xor, UInt32.toNat_xor, Nat.xor_mod_two_pow, h, ← Nat.xor_mod_two_pow]

theorem ones_ones (n : Nat) (x : UInt32) : x ^^^ x86Ones n ^^^ x86Ones n = x := by
  rw [UInt32.xor_assoc, UInt32.xor_self, UInt32.xor_zero]

variable {f g : UInt32 → UInt32 → UInt32}

/-- A corrected address has no sign byte where the mask points, when its source has none. -/
theorem x86Corrected_tested (hf : X86Undoes f g) {n : Nat} (hn : n = 1 ∨ n = 2 ∨ n = 3)
    (addr src : UInt32) (hclear : msbyte (x86Tested n src) = false) :
    msbyte (x86Tested n (x86Corrected f addr n src)) = false := by
  unfold x86Corrected
  split
  · have hflip := hf.flip src addr (32 - 8 * n) (by omega)
    rw [msbyte_eq_false, x86Tested_toNat] at hclear ⊢
    rw [x86Ones]
    generalize f (f src addr ^^^ UInt32.ofNat (2 ^ (32 - 8 * n) - 1)) addr = y at hflip
    rcases hn with rfl | rfl | rfl <;> omega
  · rename_i h
    rw [not_and, Bool.not_eq_true] at h
    exact h (by omega)

/-- **Converting an operand is undone** by converting it back: the operand ends in a sign byte again
and has none where the mask points, so that the same scan converts it, and the same correction is
made on the way back. -/
theorem x86Operand_undo (hf : X86Undoes f g) {n : Nat} (hn : n < 4)
    (addr src : UInt32) (hsign : msbyte (x86Tested 0 src) = true)
    (hclear : n ≠ 0 → msbyte (x86Tested n src) = false) :
    msbyte (x86Tested 0 (x86Operand f addr n src)) = true ∧
      (n ≠ 0 → msbyte (x86Tested n (x86Operand f addr n src)) = false) ∧
      x86Operand g addr n (x86Operand f addr n src) = src := by
  have hlow := x86Extended_low (x86Corrected f addr n src)
  refine ⟨x86Extended_sign _, fun hne => ?_, ?_⟩
  · have hn : n = 1 ∨ n = 2 ∨ n = 3 := by omega
    rw [x86Operand, x86Tested_congr hn hlow]
    exact x86Corrected_tested hf hn addr src (hclear hne)
  · refine Eq.trans (x86Extended_congr ?_) (x86Extended_self hsign)
    show (x86Corrected g addr n (x86Extended (x86Corrected f addr n src))).toNat % 2 ^ 25 = _
    generalize x86Extended (x86Corrected f addr n src) = t at hlow
    by_cases hcorrect : n ≠ 0 ∧ msbyte (x86Tested n (f src addr)) = true
    · -- the way there flipped once, so the way back flips as well
      have hn : n = 1 ∨ n = 2 ∨ n = 3 := by omega
      rw [x86Corrected, if_pos hcorrect] at hlow
      have hback := hf.undo (f src addr ^^^ x86Ones n) t addr hlow
      have hagain : msbyte (x86Tested n (g t addr)) = true := by
        rw [x86Tested_congr hn hback, x86Tested_ones hn]
        exact hcorrect.2
      rw [x86Corrected, if_pos ⟨hcorrect.1, hagain⟩]
      refine hf.undo src _ addr ?_
      rw [ones_congr hback, ones_ones]
    · rw [x86Corrected, if_neg hcorrect] at hlow
      have hback := hf.undo src t addr hlow
      rw [x86Corrected, if_neg, hback]
      rintro ⟨hne, hms⟩
      have hn : n = 1 ∨ n = 2 ∨ n = 3 := by omega
      rw [x86Tested_congr hn hback, hclear hne] at hms
      cases hms

/-! ## The scan -/

/-- Which of the last three bytes were opcodes left alone. -/
structure History where
  one : Bool
  two : Bool
  three : Bool
  deriving DecidableEq, Repr

namespace History

def empty : History := ⟨false, false, false⟩

/-- One byte further on. -/
def next (h : History) (left : Bool) : History := ⟨left, h.one, h.two⟩

/-- How far back the opcode left alone is, or 0 for none; nothing when there are several. -/
def pending : History → Option Nat
  | ⟨false, false, false⟩ => some 0
  | ⟨true, false, false⟩ => some 1
  | ⟨false, true, false⟩ => some 2
  | ⟨false, false, true⟩ => some 3
  | _ => none

end History

/-- Whether the operand `src` of an opcode is converted: it ends in a sign byte, and one opcode at
most was left alone just before, whose own last operand byte is no sign byte. -/
def x86Converts (h : History) (src : UInt32) : Option Nat :=
  h.pending.filter fun n =>
    msbyte (x86Tested 0 src) && (n == 0 || !msbyte (x86Tested n src))

/-- The scan of what is left of a buffer, from stream position `pos` on. -/
def x86Scan (f : UInt32 → UInt32 → UInt32) (pos : UInt32) (h : History) : Bytes → Bytes
  | b :: c₀ :: c₁ :: c₂ :: c₃ :: rest =>
    if b &&& 0xFE ≠ 0xE8 then
      b :: x86Scan f (pos + 1) (h.next false) (c₀ :: c₁ :: c₂ :: c₃ :: rest)
    else
      match x86Converts h (u32le [c₀, c₁, c₂, c₃]) with
      | some n => b :: (u32Bytes (x86Operand f (pos + 5) n (u32le [c₀, c₁, c₂, c₃])) ++
          x86Scan f (pos + 5) .empty rest)
      | none => b :: x86Scan f (pos + 1) (h.next true) (c₀ :: c₁ :: c₂ :: c₃ :: rest)
  | short => short

/-- The bytes that were looked at for an opcode left alone are sign bytes still, or are none still:
they are the last operand bytes of the opcodes in the history. -/
structure Kept (h : History) (before after : Bytes) : Prop where
  one : h.one = true → (after[3]?).map msbyte = (before[3]?).map msbyte
  two : h.two = true → (after[2]?).map msbyte = (before[2]?).map msbyte
  three : h.three = true → (after[1]?).map msbyte = (before[1]?).map msbyte

theorem tested_word (c₀ c₁ c₂ c₃ : UInt8) :
    x86Tested 0 (u32le [c₀, c₁, c₂, c₃]) = c₃ ∧ x86Tested 1 (u32le [c₀, c₁, c₂, c₃]) = c₂ ∧
      x86Tested 2 (u32le [c₀, c₁, c₂, c₃]) = c₁ ∧ x86Tested 3 (u32le [c₀, c₁, c₂, c₃]) = c₀ := by
  have h₀ := c₀.toNat_lt
  have h₁ := c₁.toNat_lt
  have h₂ := c₂.toNat_lt
  have h₃ := c₃.toNat_lt
  have hword : (u32le [c₀, c₁, c₂, c₃]).toNat =
      c₀.toNat + 256 * (c₁.toNat + 256 * (c₂.toNat + 256 * (c₃.toNat + 256 * 0))) :=
    u32le_toNat rfl
  simp only [← UInt8.toNat_inj, x86Tested_toNat, hword]
  omega

/-- A conversion is decided by what kind of bytes the operand has. -/
theorem x86Converts_congr {h : History} {b₀ b₁ b₂ b₃ c₀ c₁ c₂ c₃ : UInt8}
    (h₃ : msbyte b₃ = msbyte c₃) (h₂ : h.one = true → msbyte b₂ = msbyte c₂)
    (h₁ : h.two = true → msbyte b₁ = msbyte c₁) (h₀ : h.three = true → msbyte b₀ = msbyte c₀) :
    x86Converts h (u32le [b₀, b₁, b₂, b₃]) = x86Converts h (u32le [c₀, c₁, c₂, c₃]) := by
  obtain ⟨t₀, t₁, t₂, t₃⟩ := tested_word b₀ b₁ b₂ b₃
  obtain ⟨s₀, s₁, s₂, s₃⟩ := tested_word c₀ c₁ c₂ c₃
  obtain ⟨one, two, three⟩ := h
  unfold x86Converts History.pending
  split <;> simp_all [Option.filter]

/-- Four bytes have no room for an instruction. -/
theorem x86Scan_short (f : UInt32 → UInt32 → UInt32) (pos : UInt32) (h : History) {xs : Bytes}
    (hlen : xs.length ≤ 4) : x86Scan f pos h xs = xs := by
  rw [x86Scan.eq_2]
  rintro b c₀ c₁ c₂ c₃ rest rfl
  simp only [List.length_cons] at hlen
  omega

theorem x86Scan_length (f : UInt32 → UInt32 → UInt32) (pos : UInt32) (h : History) (xs : Bytes) :
    (x86Scan f pos h xs).length = xs.length := by
  fun_induction x86Scan f pos h xs with
  | case1 pos h b c₀ c₁ c₂ c₃ rest hop ih =>
    rw [List.length_cons, ih]
    rfl
  | case2 pos h b c₀ c₁ c₂ c₃ rest hop n hn ih =>
    rw [List.length_cons, List.length_append, u32Bytes_length, ih]
    simp only [List.length_cons]
    omega
  | case3 pos h b c₀ c₁ c₂ c₃ rest hop hn ih =>
    rw [List.length_cons, ih]
    rfl
  | case4 => rfl

/-- A byte the scan comes to stays as it is. -/
theorem x86Scan_head (f : UInt32 → UInt32 → UInt32) (pos : UInt32) (h : History) (xs : Bytes) :
    (x86Scan f pos h xs)[0]? = xs[0]? := by
  fun_induction x86Scan f pos h xs <;> rfl

theorem Kept.cons {h : History} {b : UInt8} {left : Bool} {xs ys : Bytes}
    (hkept : Kept (h.next left) xs ys) (hhead : ys[0]? = xs[0]?) : Kept h (b :: xs) (b :: ys) where
  one h1 := by
    rw [List.getElem?_cons_succ, List.getElem?_cons_succ]
    exact hkept.two h1
  two h2 := by
    rw [List.getElem?_cons_succ, List.getElem?_cons_succ]
    exact hkept.three h2
  three _ := by rw [List.getElem?_cons_succ, List.getElem?_cons_succ, hhead]

/-- What a conversion asks of the operand it converts. -/
theorem x86Converts_eq_some {h : History} {src : UInt32} {n : Nat} :
    x86Converts h src = some n ↔ h.pending = some n ∧ msbyte (x86Tested 0 src) = true ∧
      (n ≠ 0 → msbyte (x86Tested n src) = false) := by
  unfold x86Converts
  rw [Option.filter_eq_some_iff, Bool.and_eq_true, Bool.or_eq_true, beq_iff_eq, Bool.not_eq_true',
    Decidable.or_iff_not_imp_left]

/-- Where the one opcode left alone is. -/
theorem History.pending_cases {h : History} {n : Nat} (hn : h.pending = some n) :
    n < 4 ∧ (h.one = true → n = 1) ∧ (h.two = true → n = 2) ∧ (h.three = true → n = 3) := by
  obtain ⟨one, two, three⟩ := h
  revert hn
  cases one <;> cases two <;> cases three <;> simp [pending] <;> omega

theorem word_bytes {src : UInt32} {c₀ c₁ c₂ c₃ : UInt8} (h : u32Bytes src = [c₀, c₁, c₂, c₃]) :
    u32le [c₀, c₁, c₂, c₃] = src := by
  rw [← h, u32le_u32Bytes]

/-- Some four bytes. -/
theorem exists_word (src : UInt32) : ∃ c₀ c₁ c₂ c₃, u32Bytes src = [c₀, c₁, c₂, c₃] := by
  have hlen := u32Bytes_length src
  match hs : u32Bytes src, hlen with
  | [c₀, c₁, c₂, c₃], _ => exact ⟨c₀, c₁, c₂, c₃, rfl⟩

/-- **What decided a conversion keeps deciding it the same way.** -/
theorem x86Scan_kept (hf : X86Undoes f g) (pos : UInt32) (h : History) (xs : Bytes) :
    Kept h xs (x86Scan f pos h xs) := by
  fun_induction x86Scan f pos h xs with
  | case1 pos h b c₀ c₁ c₂ c₃ rest hop ih => exact ih.cons (x86Scan_head _ _ _ _)
  | case3 pos h b c₀ c₁ c₂ c₃ rest hop hn ih => exact ih.cons (x86Scan_head _ _ _ _)
  | case4 => exact ⟨fun _ => rfl, fun _ => rfl, fun _ => rfl⟩
  | case2 pos h b c₀ c₁ c₂ c₃ rest hop n hn ih =>
    obtain ⟨hpending, hsign, hclear⟩ := x86Converts_eq_some.mp hn
    obtain ⟨hlt, h1, h2, h3⟩ := History.pending_cases hpending
    obtain ⟨-, hafter, -⟩ := x86Operand_undo hf hlt (pos + 5) _ hsign hclear
    generalize x86Operand f (pos + 5) n (u32le [c₀, c₁, c₂, c₃]) = dest at hafter
    obtain ⟨d₀, d₁, d₂, d₃, hd⟩ := exists_word dest
    obtain ⟨t₀, t₁, t₂, t₃⟩ := tested_word c₀ c₁ c₂ c₃
    obtain ⟨s₀, s₁, s₂, s₃⟩ := tested_word d₀ d₁ d₂ d₃
    rw [word_bytes hd] at s₀ s₁ s₂ s₃
    rw [hd]
    refine ⟨fun hone => ?_, fun htwo => ?_, fun hthree => ?_⟩
    · obtain rfl := h1 hone
      have hb := hclear (by decide)
      have ha := hafter (by decide)
      rw [t₁] at hb
      rw [s₁] at ha
      show some (msbyte d₂) = some (msbyte c₂)
      rw [ha, hb]
    · obtain rfl := h2 htwo
      have hb := hclear (by decide)
      have ha := hafter (by decide)
      rw [t₂] at hb
      rw [s₂] at ha
      show some (msbyte d₁) = some (msbyte c₁)
      rw [ha, hb]
    · obtain rfl := h3 hthree
      have hb := hclear (by decide)
      have ha := hafter (by decide)
      rw [t₃] at hb
      rw [s₃] at ha
      show some (msbyte d₀) = some (msbyte c₀)
      rw [ha, hb]

/-- A scan that comes to an operand leaves four bytes for it. -/
theorem x86Scan_operand (f : UInt32 → UInt32 → UInt32) (pos : UInt32) (h : History)
    (c₀ c₁ c₂ c₃ : UInt8) (rest : Bytes) :
    ∃ d₁ d₂ d₃ more, x86Scan f pos h (c₀ :: c₁ :: c₂ :: c₃ :: rest) =
      c₀ :: d₁ :: d₂ :: d₃ :: more := by
  have hlen := x86Scan_length f pos h (c₀ :: c₁ :: c₂ :: c₃ :: rest)
  have hhead := x86Scan_head f pos h (c₀ :: c₁ :: c₂ :: c₃ :: rest)
  match hs : x86Scan f pos h (c₀ :: c₁ :: c₂ :: c₃ :: rest), hlen with
  | d₀ :: d₁ :: d₂ :: d₃ :: more, _ =>
    rw [hs] at hhead
    cases hhead
    exact ⟨d₁, d₂, d₃, more, rfl⟩

/-- **The scan is undone** by the scan that adds where it subtracts, or the other way round. -/
theorem x86Scan_undo (hf : X86Undoes f g) (pos : UInt32) (h : History) (xs : Bytes) :
    x86Scan g pos h (x86Scan f pos h xs) = xs := by
  fun_induction x86Scan f pos h xs with
  | case4 pos h short hshort => rw [x86Scan.eq_2 g pos h short hshort]
  | case1 pos h b c₀ c₁ c₂ c₃ rest hop ih =>
    obtain ⟨d₁, d₂, d₃, more, hs⟩ := x86Scan_operand f (pos + 1) (h.next false) c₀ c₁ c₂ c₃ rest
    rw [hs] at ih ⊢
    rw [x86Scan, if_pos hop, ih]
  | case2 pos h b c₀ c₁ c₂ c₃ rest hop n hn ih =>
    obtain ⟨hpending, hsign, hclear⟩ := x86Converts_eq_some.mp hn
    obtain ⟨hlt, -⟩ := History.pending_cases hpending
    obtain ⟨hsign', hclear', hundo⟩ := x86Operand_undo hf hlt (pos + 5) _ hsign hclear
    generalize x86Operand f (pos + 5) n (u32le [c₀, c₁, c₂, c₃]) = dest at hsign' hclear' hundo
    obtain ⟨d₀, d₁, d₂, d₃, hd⟩ := exists_word dest
    have hagain := x86Converts_eq_some.mpr ⟨hpending, hsign', hclear'⟩
    rw [hd, List.cons_append, List.cons_append, List.cons_append, List.cons_append,
      List.nil_append, x86Scan, if_neg hop, word_bytes hd, hagain]
    dsimp only
    rw [hundo, ih, u32Bytes_u32le rfl]
    rfl
  | case3 pos h b c₀ c₁ c₂ c₃ rest hop hn ih =>
    have hkept := x86Scan_kept hf (pos + 1) (h.next true) (c₀ :: c₁ :: c₂ :: c₃ :: rest)
    obtain ⟨d₁, d₂, d₃, more, hs⟩ := x86Scan_operand f (pos + 1) (h.next true) c₀ c₁ c₂ c₃ rest
    rw [hs] at ih hkept ⊢
    have hsame := @x86Converts_congr h c₀ d₁ d₂ d₃ c₀ c₁ c₂ c₃ (Option.some.inj (hkept.one rfl))
      (fun h1 => Option.some.inj (hkept.two h1)) (fun h2 => Option.some.inj (hkept.three h2))
      fun _ => rfl
    rw [x86Scan, if_neg hop, hsame, hn]
    dsimp only
    rw [ih]

/-! ## The converter is the scan -/

namespace History

/-- The mask of a history: bit `d - 1` for the opcode `d` bytes back. -/
def mask (h : History) : UInt32 :=
  (if h.one then 1 else 0) ||| (if h.two then 2 else 0) ||| (if h.three then 4 else 0)

theorem mask_lt (h : History) : h.mask.toNat < 8 := by
  obtain ⟨one, two, three⟩ := h
  revert one two three
  decide

theorem mask_inj {h h' : History} (heq : h.mask = h'.mask) : h = h' := by
  obtain ⟨one, two, three⟩ := h
  obtain ⟨one', two', three'⟩ := h'
  revert one two three one' two' three'
  decide

/-- The tables of the converter are those of the history. -/
theorem pending_tables (h : History) : ∃ n, BIT_NUM[h.mask.toNat]? = some n ∧ n < 4 ∧
    ∃ allowed, ALLOWED[h.mask.toNat]? = some allowed ∧
      h.pending = if allowed then some n else none := by
  obtain ⟨one, two, three⟩ := h
  revert one two three
  decide

theorem pending_zero {h : History} : h.pending = some 0 ↔ h.mask = 0 := by
  obtain ⟨one, two, three⟩ := h
  revert one two three
  decide

end History

/-- What of the remembered opcodes still matters `gap` bytes after the last one. -/
def x86MaskAt (gap : Nat) (prevMask : UInt32) : UInt32 :=
  if 3 < gap then 0 else (prevMask <<< UInt32.ofNat (gap - 1)) &&& 7

theorem x86Mask_eq {gap : Nat} (hgap : 0 < gap) (prevMask : UInt32) :
    x86Mask gap prevMask = .ok (x86MaskAt gap prevMask) := by
  unfold x86Mask x86MaskAt
  split
  · rfl
  · rw [sub64_ok hgap, ok_bind, shl32, guarded_ok (by omega), ok_bind]
    rfl

/-- The mask a byte further on. -/
theorem x86MaskAt_next {gap : Nat} (hgap : 0 < gap) {prevMask : UInt32}
    (hsmall : prevMask.toNat < 16) {h : History} (hmask : x86MaskAt gap prevMask = h.mask) :
    x86MaskAt (gap + 1) prevMask = (h.next false).mask := by
  have htable : ∀ n < 16, ∀ g < 4, 0 < g → ∀ one two three : Bool,
      x86MaskAt g (UInt32.ofNat n) = History.mask ⟨one, two, three⟩ →
        x86MaskAt (g + 1) (UInt32.ofNat n) = History.mask ⟨false, one, two⟩ := by
    decide +kernel
  by_cases hfar : 3 < gap
  · rw [x86MaskAt, if_pos hfar] at hmask
    obtain rfl : h = .empty := History.mask_inj hmask.symm
    rw [x86MaskAt, if_pos (by omega)]
    rfl
  · have hnext := htable prevMask.toNat hsmall gap (by omega) hgap h.one h.two h.three
    rw [UInt32.ofNat_toNat] at hnext
    exact hnext hmask

theorem x86MaskAt_left (h : History) :
    x86MaskAt 1 ((h.mask <<< 1) ||| 1) = (h.next true).mask ∧
      ((h.mask <<< 1) ||| 1).toNat < 16 := by
  obtain ⟨one, two, three⟩ := h
  revert one two three
  decide

namespace X86

/-- How far back the last opcode is. -/
def gap (s : X86) : Nat := (s.i + wordSize - s.prevPos) % wordSize

/-- The history a state of the scan remembers. -/
structure Remembers (s : X86) (h : History) : Prop where
  before : s.prevPos < s.i ∨ s.prevPos = wordSize - 1
  small : s.prevMask.toNat < 16
  mask : x86MaskAt s.gap s.prevMask = h.mask

variable {s : X86} {h : History}

theorem Remembers.gap_pos (hs : s.Remembers h) (hi : s.i + 1 < wordSize) : 0 < s.gap := by
  have hbefore := hs.before
  unfold gap
  unfold wordSize at *
  omega

/-- A byte is passed. -/
theorem Remembers.skip (hs : s.Remembers h) (hi : s.i + 2 < wordSize) :
    ({ s with i := s.i + 1 } : X86).Remembers (h.next false) := by
  refine ⟨hs.before.imp Nat.lt_succ_of_lt id, hs.small, ?_⟩
  have hgap : ({ s with i := s.i + 1 } : X86).gap = s.gap + 1 := by
    have hbefore := hs.before
    unfold gap
    unfold wordSize at *
    dsimp only
    omega
  rw [hgap]
  exact x86MaskAt_next (hs.gap_pos (by omega)) hs.small hs.mask

theorem gap_after {buf : Bytes} {i k : Nat} {prevMask : UInt32} (hk : i + k < wordSize) :
    X86.gap ⟨buf, i, prevMask, i + k⟩ = k := by
  unfold gap
  unfold wordSize at *
  dsimp only
  omega

/-- An opcode is left alone. -/
theorem remembers_left {buf : Bytes} {i : Nat} (h : History) (hi : i + 1 < wordSize) :
    Remembers ⟨buf, i, (h.mask <<< 1) ||| 1, i + 1⟩ (h.next true) := by
  obtain ⟨hmask, hsmall⟩ := x86MaskAt_left h
  refine ⟨.inl (Nat.lt_succ_self i), hsmall, ?_⟩
  rw [gap_after hi]
  exact hmask

/-- An operand is converted, and what came before is forgotten. -/
theorem remembers_converted {buf : Bytes} {i : Nat} (h : History) (hi : i + 5 < wordSize) :
    Remembers ⟨buf, i, h.mask, i + 5⟩ .empty := by
  refine ⟨.inl (Nat.lt_add_of_pos_right (by decide)), ?_, ?_⟩
  · exact Nat.lt_trans h.mask_lt (by decide)
  · rw [gap_after hi]
    rfl

theorem remembers_start (buf : Bytes) : Remembers ⟨buf, wordSize - 1, 0, 0⟩ .empty := by
  refine ⟨.inr rfl, Nat.succ_pos 15, ?_⟩
  have hgap : gap ⟨buf, wordSize - 1, 0, 0⟩ = 1 := by
    show (0 + wordSize - (wordSize - 1)) % wordSize = 1
    unfold wordSize
    omega
  rw [hgap]
  show x86MaskAt 1 0 = 0
  decide

end X86

/-- The inner loop, given two turns, ends in the corrected address. -/
theorem x86Dest_eq {h : History} {n : Nat} (hn : h.pending = some n) (addr src : UInt32)
    (hclear : n ≠ 0 → msbyte (x86Tested n src) = false) (turns : Nat) :
    x86Dest addr h.mask (turns + 2) src = .ok (x86Corrected (· - ·) addr n src) := by
  obtain ⟨hlt, -⟩ := History.pending_cases hn
  by_cases hzero : n = 0
  · subst hzero
    rw [x86Dest, if_pos (History.pending_zero.mp hn), x86Corrected, if_neg fun h => h.1 rfl]
    rfl
  · have hne : h.mask ≠ 0 := fun h0 => by
      rw [History.pending_zero.mpr h0] at hn
      exact hzero (Option.some.inj hn).symm
    obtain ⟨m, hm, -, allowed, -, hpending⟩ := h.pending_tables
    have hmn : BIT_NUM[h.mask.toNat]? = some n := by
      rw [hn] at hpending
      split at hpending
      · cases hpending
        exact hm
      · cases hpending
    have hn3 : n = 1 ∨ n = 2 ∨ n = 3 := by omega
    rw [x86Dest_turn hne hmn hn3]
    unfold x86Corrected
    by_cases hms : msbyte (x86Tested n (src - addr)) = true
    · rw [if_pos hms, if_pos ⟨hzero, hms⟩, x86Dest_turn hne hmn hn3,
        x86Tested_flip src addr hn3 (hclear hzero)]
      rfl
    · rw [if_neg hms, if_neg fun h => hms h.2]

/-- The operand in a buffer. -/
theorem operand_word {buf done rest : Bytes} {b c₀ c₁ c₂ c₃ : UInt8}
    (hbuf : buf = done ++ b :: c₀ :: c₁ :: c₂ :: c₃ :: rest) :
    (buf.drop (done.length + 1)).take 4 = [c₀, c₁, c₂, c₃] := by
  rw [hbuf, ← List.drop_drop, List.drop_left]
  rfl

/-- Whether the remembered opcodes bar a conversion. -/
theorem x86Barred_eq {buf : Bytes} {i : Nat} (h : History) (hlen : i + 5 ≤ buf.length)
    (hw : buf.length < wordSize) : x86Barred buf i h.mask = .ok (match h.pending with
      | none => true
      | some n => n != 0 && msbyte (x86Tested n (u32le ((buf.drop (i + 1)).take 4)))) := by
  obtain ⟨n, hn, hlt, allowed, hallowed, hpending⟩ := h.pending_tables
  unfold x86Barred
  by_cases hzero : h.mask = 0
  · rw [if_pos hzero, History.pending_zero.mpr hzero]
    rfl
  · have hn0 : allowed = true → n ≠ 0 := by
      rintro rfl rfl
      exact hzero (History.pending_zero.mp hpending)
    have hb : i + 4 - n < buf.length := by omega
    rw [if_neg hzero, index_eq_ok.mpr hn, ok_bind, add64_ok (by omega), ok_bind,
      sub64_ok (by omega), ok_bind, index_ok hb, ok_bind, index_eq_ok.mpr hallowed, ok_bind, hpending]
    cases allowed with
    | false => rfl
    | true =>
      have hne := hn0 rfl
      have htested := x86Tested_operand (by omega) hlen (List.getElem?_eq_getElem hb)
      show Except.ok (msbyte buf[i + 4 - n]) = Except.ok (n != 0 && msbyte (x86Tested n _))
      rw [htested, bne_iff_ne.mpr hne, Bool.true_and]

/-- A state of a scan that is to end in `out`: it has dealt with the bytes before `s.i`, and scans
those from there on as they were. -/
structure X86.Stands (start : UInt32) (out : Bytes) (s : X86) (h : History) (done rest : Bytes) :
    Prop where
  remembers : s.Remembers h
  buf : s.buf = done ++ rest
  position : s.i = done.length
  ends : done ++ x86Scan (· - ·) (start + UInt32.ofNat s.i) h rest = out

/-- What a turn does to the buffer: nothing, or it rewrites the operand of the opcode it is at. -/
def X86.Turned (s s' : X86) : Prop :=
  s'.buf = s.buf ∧ s'.i = s.i + 1 ∨
    s'.i = s.i + 5 ∧ s'.buf.length = s.buf.length ∧
      ∀ p, p < s.i + 1 ∨ s.i + 5 ≤ p → s'.buf[p]? = s.buf[p]?

/-- A turn that leaves the buffer goes one byte on. -/
theorem X86.Stands.pass {start : UInt32} {out : Bytes} {s : X86} {h h' : History}
    {done rest : Bytes} {b : UInt8} (hs : s.Stands start out h done (b :: rest)) (s' : X86)
    (hbuf : s'.buf = s.buf) (hi : s'.i = s.i + 1) (hremembers : s'.Remembers h')
    (hscan : x86Scan (· - ·) (start + UInt32.ofNat s.i) h (b :: rest) =
      b :: x86Scan (· - ·) (start + UInt32.ofNat s.i + 1) h' rest) :
    s'.Stands start out h' (done ++ [b]) rest ∧ s.Turned s' := by
  have hpos : start + UInt32.ofNat (s.i + 1) = start + UInt32.ofNat s.i + 1 := by
    rw [UInt32.ofNat_add, UInt32.add_assoc]
    rfl
  refine ⟨⟨hremembers, ?_, ?_, ?_⟩, .inl ⟨hbuf, hi⟩⟩
  · rw [hbuf, hs.buf, List.append_assoc]
    rfl
  · rw [hi, hs.position, List.length_append]
    rfl
  · rw [← hs.ends, hi, hpos, hscan, List.append_assoc]
    rfl

/-- **One turn**, on the bytes it has before it. -/
theorem x86Step_stands {start : UInt32} {out : Bytes} {s : X86} {h : History} {done rest : Bytes}
    {b c₀ c₁ c₂ c₃ : UInt8} (hs : s.Stands start out h done (b :: c₀ :: c₁ :: c₂ :: c₃ :: rest))
    (hw : s.buf.length < wordSize) :
    ∃ s' h' done' rest', x86Step start s = .ok s' ∧ s'.Stands start out h' done' rest' ∧
      s.Turned s' := by
  have hi := hs.position
  have hbuf := hs.buf
  have hlen : s.i + 5 ≤ s.buf.length := by
    rw [hbuf, hi, List.length_append]
    simp only [List.length_cons]
    omega
  have hop : s.buf[s.i]? = some b := by
    rw [hbuf, hi, List.getElem?_append_right (Nat.le_refl _), Nat.sub_self]
    rfl
  have hlast : s.buf[s.i + 4]? = some c₃ := by
    rw [hbuf, hi, List.getElem?_append_right (by omega), Nat.add_sub_cancel_left]
    rfl
  have hword : (s.buf.drop (s.i + 1)).take 4 = [c₀, c₁, c₂, c₃] := hi ▸ operand_word hbuf
  have a1 : (add64 s.i 1 : Res Nat) = .ok (s.i + 1) := add64_ok (by omega)
  have a4 : (add64 s.i 4 : Res Nat) = .ok (s.i + 4) := add64_ok (by omega)
  have a5 : (add64 s.i 5 : Res Nat) = .ok (s.i + 5) := add64_ok (by omega)
  unfold x86Step
  rw [index_eq_ok.mpr hop, ok_bind]
  by_cases hmatch : b &&& 0xFE ≠ 0xE8
  · rw [if_pos hmatch, a1, ok_bind]
    obtain ⟨hstands, hturned⟩ := hs.pass { s with i := s.i + 1 } rfl rfl
      (hs.remembers.skip (by omega)) (by rw [x86Scan, if_pos hmatch])
    exact ⟨_, _, _, _, rfl, hstands, hturned⟩
  have hmask : x86Mask ((s.i + wordSize - s.prevPos) % wordSize) s.prevMask = .ok h.mask := by
    show x86Mask s.gap s.prevMask = .ok h.mask
    rw [x86Mask_eq (hs.remembers.gap_pos (by omega)), hs.remembers.mask]
  -- the opcode is left alone
  have hleft : x86Converts h (u32le [c₀, c₁, c₂, c₃]) = none → ∃ s' h' done' rest',
      x86Remember { s with prevPos := s.i, prevMask := h.mask } = .ok s' ∧
        s'.Stands start out h' done' rest' ∧ s.Turned s' := by
    intro hnone
    unfold x86Remember
    rw [a1, ok_bind]
    obtain ⟨hstands, hturned⟩ := hs.pass
      ⟨s.buf, s.i, (h.mask <<< 1) ||| 1, s.i + 1⟩ rfl rfl (X86.remembers_left h (by omega))
      (by rw [x86Scan, if_neg hmatch, hnone])
    exact ⟨_, _, _, _, rfl, hstands, hturned⟩
  rw [if_neg hmatch, hmask, ok_bind, x86Barred_eq h hlen hw, ok_bind, hword]
  rcases hconverts : x86Converts h (u32le [c₀, c₁, c₂, c₃]) with _ | n
  · have hleft := hleft hconverts
    rcases hpending : h.pending with _ | n
    · exact hleft
    · by_cases hbarred : (n != 0 && msbyte (x86Tested n (u32le [c₀, c₁, c₂, c₃]))) = true
      · dsimp only
        rw [if_pos hbarred]
        exact hleft
      · have hsign : ¬ msbyte c₃ = true := by
          intro hsign
          rw [Bool.and_eq_true, bne_iff_ne, not_and, Bool.not_eq_true] at hbarred
          rw [← (tested_word c₀ c₁ c₂ c₃).1] at hsign
          rw [x86Converts_eq_some.mpr ⟨hpending, hsign, hbarred⟩] at hconverts
          cases hconverts
        dsimp only
        rw [if_neg hbarred, a4, ok_bind, index_eq_ok.mpr hlast, ok_bind, if_neg hsign]
        exact hleft
  · obtain ⟨hpending, hsign, hclear⟩ := x86Converts_eq_some.mp hconverts
    have hfree : ¬ (n != 0 && msbyte (x86Tested n (u32le [c₀, c₁, c₂, c₃]))) = true := by
      rw [Bool.and_eq_true, bne_iff_ne, not_and, Bool.not_eq_true]
      exact hclear
    have hmove : start + UInt32.ofNat (s.i + 5) = start + UInt32.ofNat s.i + 5 := by
      rw [UInt32.ofNat_add, UInt32.add_assoc]
      rfl
    rw [(tested_word c₀ c₁ c₂ c₃).1] at hsign
    rw [hpending]
    dsimp only
    rw [if_neg hfree, a4, ok_bind, index_eq_ok.mpr hlast, ok_bind, if_pos hsign]
    unfold x86Convert
    rw [a1, ok_bind, u32At_ok (by omega) (by omega), hword, ok_bind,
      x86Dest_eq hpending _ _ hclear 0, ok_bind]
    generalize hdest : x86Operand (· - ·) (start + UInt32.ofNat s.i + 5) n
      (u32le [c₀, c₁, c₂, c₃]) = dest
    show ∃ s' h' done' rest', (copyInto s.buf (s.i + 1) (u32Bytes (x86Operand (· - ·)
      (start + UInt32.ofNat s.i + 5) n (u32le [c₀, c₁, c₂, c₃]))) >>= fun buf => do
        let i ← add64 s.i 5
        return (⟨buf, s.i, h.mask, i⟩ : X86) : Res X86) = .ok s' ∧ _
    rw [hdest, copyInto_ok (by rw [u32Bytes_length]; omega), ok_bind, a5, ok_bind, u32Bytes_length]
    have htake : s.buf.take (s.i + 1) = done ++ [b] := by
      rw [hbuf, show done ++ b :: c₀ :: c₁ :: c₂ :: c₃ :: rest =
        (done ++ [b]) ++ c₀ :: c₁ :: c₂ :: c₃ :: rest by simp, List.take_left']
      rw [List.length_append, hi]
      rfl
    have hdrop : s.buf.drop (s.i + 1 + 4) = rest := by
      rw [hbuf, hi, Nat.add_assoc, ← List.drop_drop, List.drop_left]
      rfl
    refine ⟨_, .empty, done ++ [b] ++ u32Bytes dest, rest, rfl,
      ⟨X86.remembers_converted h (by omega), by rw [htake, hdrop], ?_, ?_⟩, .inr ⟨rfl, ?_, ?_⟩⟩
    · simp only [List.length_append, u32Bytes_length, hi]
      rfl
    · rw [← hs.ends, hmove, x86Scan, if_neg hmatch, hconverts]
      dsimp only
      rw [hdest, List.append_assoc, List.append_assoc]
      rfl
    · have hlength := @paste_length _ s.buf (u32Bytes dest) (s.i + 1)
        (by rw [u32Bytes_length]; omega)
      rw [paste, u32Bytes_length] at hlength
      exact hlength
    · intro p hp
      have hlength := u32Bytes_length dest
      have hpaste := @getElem?_paste _ s.buf (u32Bytes dest) (s.i + 1) p (by omega) (by omega)
      rw [paste, hlength] at hpaste
      exact hpaste

namespace X86

/-- The states that the scan of `buf` comes to. -/
inductive Reached (start : UInt32) (buf : Bytes) : X86 → Prop
  | start : Reached start buf ⟨buf, wordSize - 1, 0, 0⟩
  | step {s s' : X86} (hs : Reached start buf s) (hi : s.i < buf.length - 4)
      (h : x86Step start s = .ok s') : Reached start buf s'

/-- The operand byte `p` belongs to an instruction that the scan converted. -/
def Converted (start : UInt32) (buf : Bytes) (p : Nat) : Prop :=
  ∃ s s', Reached start buf s ∧ s.i < buf.length - 4 ∧ x86Step start s = .ok s' ∧
    s'.i = s.i + 5 ∧ s.i < p ∧ p ≤ s.i + 4

variable {start : UInt32} {buf out : Bytes} {s s' : X86}

theorem stands_start (start : UInt32) (buf : Bytes) :
    Stands start (x86Scan (· - ·) start .empty buf) ⟨buf, wordSize - 1, 0, 0⟩ .empty [] buf where
  remembers := remembers_start buf
  buf := rfl
  position := rfl
  ends := by
    show [] ++ x86Scan (· - ·) (start + 0) .empty buf = _
    rw [UInt32.add_zero]
    rfl

/-- Before the last four bytes there is an opcode's place and an operand's. -/
theorem Stands.turn {h : History} {done rest : Bytes} (hs : s.Stands start out h done rest)
    (hi : s.i < s.buf.length - 4) (hw : s.buf.length < wordSize) :
    ∃ s' h' done' rest', x86Step start s = .ok s' ∧ s'.Stands start out h' done' rest' ∧
      s.Turned s' := by
  have hlen := congrArg List.length hs.buf
  rw [List.length_append, ← hs.position] at hlen
  match rest, hs with
  | b :: c₀ :: c₁ :: c₂ :: c₃ :: rest, hs => exact x86Step_stands hs hw
  | [], _ | [_], _ | [_, _], _ | [_, _, _], _ | [_, _, _, _], _ =>
    simp only [List.length_cons, List.length_nil] at hlen
    omega

/-- At the end there is nothing left to convert. -/
theorem Stands.out_eq {h : History} {done rest : Bytes} (hs : s.Stands start out h done rest)
    (hi : ¬ s.i < s.buf.length - 4) : s.buf = out := by
  have hlen := congrArg List.length hs.buf
  rw [List.length_append, ← hs.position] at hlen
  rw [← hs.ends, hs.buf, x86Scan_short _ _ _ (by omega)]

/-- The states reached end in one result, and have the bytes ahead of them as they were. -/
theorem Reached.stands (hs : Reached start buf s) (hw : buf.length < wordSize) :
    (∃ h done rest, s.Stands start (x86Scan (· - ·) start .empty buf) h done rest) ∧
      s.buf.length = buf.length ∧ (∀ p, s.i ≤ p → s.buf[p]? = buf[p]?) ∧
      ∀ p, s.buf[p]? ≠ buf[p]? → Converted start buf p := by
  induction hs with
  | start => exact ⟨⟨_, _, _, stands_start start buf⟩, rfl, fun _ _ => rfl, fun _ h => absurd rfl h⟩
  | @step s s' hreached hi hstep ih =>
    obtain ⟨⟨h, done, rest, hs⟩, hlen, hahead, hchanged⟩ := ih
    obtain ⟨s'', h', done', rest', hstep', hs', hturned⟩ :=
      hs.turn (by rw [hlen]; exact hi) (by rw [hlen]; exact hw)
    rw [hstep] at hstep'
    cases hstep'
    refine ⟨⟨h', done', rest', hs'⟩, ?_⟩
    rcases hturned with ⟨hbuf, hi'⟩ | ⟨hi', hlen', hbuf⟩
    · rw [hbuf, hi']
      exact ⟨hlen, fun p hp => hahead p (by omega), hchanged⟩
    · refine ⟨hlen'.trans hlen, fun p hp => ?_, fun p hp => ?_⟩
      · rw [hbuf p (by omega), hahead p (by omega)]
      · by_cases hin : p < s.i + 1 ∨ s.i + 5 ≤ p
        · rw [hbuf p hin] at hp
          exact hchanged p hp
        · exact ⟨s, s', hreached, hi, hstep, hi', by omega, by omega⟩

end X86

/-- The loop runs to the end of the scan. -/
theorem x86Loop_reaches {start : UInt32} {buf : Bytes} (hw : buf.length < wordSize) {turns : Nat}
    {s : X86} (hs : X86.Reached start buf s) (hturns : buf.length - 4 ≤ turns + s.i) :
    ∃ s', X86.Reached start buf s' ∧ ¬ s'.i < buf.length - 4 ∧
      x86Loop start (buf.length - 4) turns s = .ok s'.buf := by
  induction turns generalizing s with
  | zero =>
    refine ⟨s, hs, by omega, ?_⟩
    unfold x86Loop
    rw [if_neg (by omega)]
  | succ turns ih =>
    unfold x86Loop
    by_cases hi : s.i < buf.length - 4
    · obtain ⟨⟨h, done, rest, hstands⟩, hlen, -⟩ := hs.stands hw
      obtain ⟨s', -, -, -, hstep, -, hturned⟩ :=
        hstands.turn (by rw [hlen]; exact hi) (by rw [hlen]; exact hw)
      have hadvance : s.i < s'.i := by
        rcases hturned with ⟨-, h⟩ | ⟨h, -⟩
        all_goals omega
      rw [if_pos hi, hstep, ok_bind]
      exact ih (hs.step hi hstep) (by omega)
    · rw [if_neg hi]
      exact ⟨s, hs, hi, rfl⟩

/-- **The converter is the scan that subtracts.** -/
theorem x86_eq_scan (start : UInt32) {buf : Bytes} (hw : buf.length < wordSize) :
    x86 start buf = .ok (x86Scan (· - ·) start .empty buf) ∧
      ∃ s, X86.Reached start buf s ∧ s.buf = x86Scan (· - ·) start .empty buf := by
  obtain ⟨s, hs, hend, hloop⟩ := @x86Loop_reaches start buf hw (buf.length - 4) _ .start
    (Nat.le_add_right _ _)
  obtain ⟨⟨h, done, rest, hstands⟩, hlen, -⟩ := hs.stands hw
  have hout := hstands.out_eq (by rw [hlen]; exact hend)
  refine ⟨?_, s, hs, hout⟩
  unfold x86
  by_cases hshort : buf.length ≤ 4
  · rw [if_pos hshort, x86Scan_short _ _ _ hshort]
    rfl
  · rw [if_neg hshort, sub64_ok (by omega), ok_bind, hloop, hout]

/-! ## What the converter does -/

/-- **The x86 converter loses nothing.** On the buffers of any length it is the scan that subtracts,
which keeps the length and is undone by the scan that adds; every buffer is the image of exactly
one. Bytes that were tested as opcodes stay, and so does every byte but the operands of converted
instructions. -/
theorem x86_bijective (start : UInt32) {n : Nat} (hn : n ≤ isizeMax) :
    (∀ buf : Bytes, buf.length = n →
      decode .x86 start buf = .ok (x86Scan (· - ·) start .empty buf) ∧
      (x86Scan (· - ·) start .empty buf).length = n ∧
      (x86Scan (· + ·) start .empty buf).length = n ∧
      x86Scan (· + ·) start .empty (x86Scan (· - ·) start .empty buf) = buf ∧
      decode .x86 start (x86Scan (· + ·) start .empty buf) = .ok buf) ∧
    (∀ out : Bytes, out.length = n →
      ∃! buf : Bytes, buf.length = n ∧ decode .x86 start buf = .ok out) ∧
    ∀ buf out : Bytes, buf.length = n → decode .x86 start buf = .ok out →
      (∀ s, X86.Reached start buf s → s.i < buf.length - 4 → out[s.i]? = buf[s.i]?) ∧
      ∀ p, out[p]? ≠ buf[p]? → X86.Converted start buf p := by
  have hw : ∀ {b : Bytes}, b.length = n → b.length < wordSize := by
    intro b hb
    unfold isizeMax wordSize at *
    omega
  have hdecode : ∀ {b : Bytes}, b.length = n →
      decode .x86 start b = .ok (x86Scan (· - ·) start .empty b) :=
    fun hb => (x86_eq_scan start (hw hb)).1
  have hundo : ∀ b, x86Scan (· - ·) start .empty (x86Scan (· + ·) start .empty b) = b :=
    x86Scan_undo x86Undoes_add start .empty
  have hundone : ∀ b, x86Scan (· + ·) start .empty (x86Scan (· - ·) start .empty b) = b :=
    x86Scan_undo x86Undoes_sub start .empty
  refine ⟨fun buf hbuf => ⟨hdecode hbuf, ?_, ?_, hundone buf, ?_⟩, fun out hout => ?_, ?_⟩
  · rw [x86Scan_length, hbuf]
  · rw [x86Scan_length, hbuf]
  · rw [hdecode (by rw [x86Scan_length, hbuf]), hundo]
  · have hlen : (x86Scan (· + ·) start .empty out).length = n := by rw [x86Scan_length, hout]
    refine ⟨_, ⟨hlen, by rw [hdecode hlen, hundo]⟩, ?_⟩
    rintro buf ⟨hbuf, hbuf'⟩
    rw [hdecode hbuf] at hbuf'
    cases hbuf'
    exact (hundone buf).symm
  · intro buf out hbuf hout
    rw [hdecode hbuf] at hout
    cases hout
    obtain ⟨-, last, hlast, hsame⟩ := x86_eq_scan start (hw hbuf)
    refine ⟨fun s hs hi => ?_, fun p hp => ?_⟩
    · obtain ⟨⟨h, done, rest, hstands⟩, -, hahead, -⟩ := hs.stands (hw hbuf)
      have hhead := x86Scan_head (· - ·) (start + UInt32.ofNat s.i) h rest
      rw [← hahead s.i (Nat.le_refl _), ← hstands.ends, hstands.buf, hstands.position,
        List.getElem?_append_right (Nat.le_refl _), List.getElem?_append_right (Nat.le_refl _),
        Nat.sub_self]
      rw [hstands.position] at hhead
      exact hhead
    · rw [← hsame] at hp
      exact (hlast.stands (hw hbuf)).2.2.2 p hp

/-- A call of position 5 in a block that began at 0. -/
theorem x86_bijective_sample :
    decode .x86 0 [0xE8, 0x07, 0x00, 0x00, 0x00] = .ok [0xE8, 0x02, 0x00, 0x00, 0x00] ∧
      x86Scan (· + ·) 0 .empty (x86Scan (· - ·) 0 .empty [0xE8, 0x07, 0x00, 0x00, 0x00]) =
        [0xE8, 0x07, 0x00, 0x00, 0x00] := by
  obtain ⟨hdecode, -, -, hundone, -⟩ :=
    (@x86_bijective 0 5 (by decide)).1 [0xE8, 0x07, 0x00, 0x00, 0x00] rfl
  exact ⟨hdecode.trans (by decide), hundone⟩

/-- An instruction that nothing bars has an operand the inner loop can end on. -/
theorem x86Barred_eq_false {buf : Bytes} {i : Nat} {h : History} (hlen : i + 5 ≤ buf.length)
    (hw : buf.length < wordSize) (hfree : x86Barred buf i h.mask = .ok false) :
    ∃ n, h.pending = some n ∧
      (n ≠ 0 → msbyte (x86Tested n (u32le ((buf.drop (i + 1)).take 4))) = false) := by
  rw [x86Barred_eq h hlen hw] at hfree
  rcases hpending : h.pending with _ | n
  · rw [hpending] at hfree
    cases hfree
  · rw [hpending] at hfree
    refine ⟨n, rfl, fun hne => ?_⟩
    have hand : (n != 0 && msbyte (x86Tested n (u32le ((buf.drop (i + 1)).take 4)))) = false :=
      Except.ok.inj hfree
    rwa [bne_iff_ne.mpr hne, Bool.true_and] at hand

/-- **The x86 converter ends and stays in range.** It gives a buffer of the length it was given. In
every state of its scan the next one lies further on; the gap to the last opcode is positive; the
mask, which is below 8, and the entries of the two tables give indices inside the buffer and shifts
below 32; and the inner loop of an instruction that is converted ends within two turns. -/
theorem x86_in_range (start : UInt32) {buf : Bytes} (hw : buf.length ≤ isizeMax) :
    (∃ out, decode .x86 start buf = .ok out ∧ out.length = buf.length) ∧
    ∀ s, X86.Reached start buf s → s.i < buf.length - 4 →
      (∃ s', x86Step start s = .ok s' ∧ s.i < s'.i ∧ s'.buf.length = buf.length) ∧
      s.i + 5 ≤ s.buf.length ∧ 1 ≤ s.gap ∧
      ∃ mask n allowed, x86Mask s.gap s.prevMask = .ok mask ∧ mask.toNat < 8 ∧
        BIT_NUM[mask.toNat]? = some n ∧ ALLOWED[mask.toNat]? = some allowed ∧
        n * 8 ≤ 24 ∧ 24 - n * 8 < 32 ∧ (mask ≠ 0 → 32 - n * 8 < 32) ∧
        s.i + 1 ≤ s.i + 4 - n ∧ s.i + 4 - n < s.buf.length ∧
        (x86Barred s.buf s.i mask = .ok false → ∀ addr, ∃ dest, ∀ turns,
          x86Dest addr mask (turns + 2) (u32le ((s.buf.drop (s.i + 1)).take 4)) = .ok dest) := by
  have hlt : buf.length < wordSize := by
    unfold isizeMax wordSize at *
    omega
  refine ⟨⟨_, (x86_eq_scan start hlt).1, x86Scan_length _ _ _ _⟩, fun s hs hi => ?_⟩
  obtain ⟨⟨h, done, rest, hstands⟩, hlen, -⟩ := hs.stands hlt
  obtain ⟨s', -, -, -, hstep, -, hturned⟩ :=
    hstands.turn (by rw [hlen]; exact hi) (by rw [hlen]; exact hlt)
  have hgap : 0 < s.gap := hstands.remembers.gap_pos (by omega)
  obtain ⟨n, hn, hn4, allowed, hallowed, hpending⟩ := h.pending_tables
  have hmask : x86Mask s.gap s.prevMask = .ok h.mask := by
    rw [x86Mask_eq hgap, hstands.remembers.mask]
  have hone : h.mask ≠ 0 → 1 ≤ n := fun hne => by
    obtain ⟨m, hm, hm3⟩ := bitNum_cases h.mask_lt hne
    rw [hn] at hm
    cases hm
    omega
  refine ⟨⟨s', hstep, ?_⟩, by omega, hgap, h.mask, n, allowed, hmask, h.mask_lt, hn, hallowed,
    by omega, by omega, fun hne => ?_, by omega, by omega, fun hfree addr => ?_⟩
  · rcases hturned with ⟨hbuf, h'⟩ | ⟨h', hbuf, -⟩
    · exact ⟨by omega, by rw [hbuf, hlen]⟩
    · exact ⟨by omega, by rw [hbuf, hlen]⟩
  · have := hone hne
    omega
  · obtain ⟨k, hk, hclear⟩ := x86Barred_eq_false (by omega) (by omega) hfree
    exact ⟨_, fun turns => x86Dest_eq hk addr _ hclear turns⟩

/-- The second of two opcodes in a row, which is converted with the first remembered. -/
theorem x86_in_range_sample :
    (∃ out, decode .x86 7 [0xE8, 0xE8, 0x07, 0x00, 0x12, 0x00] = .ok out ∧ out.length = 6) ∧
      ∃ s, X86.Reached 7 [0xE8, 0xE8, 0x07, 0x00, 0x12, 0x00] s ∧ s.i = 1 ∧
        (∃ s', x86Step 7 s = .ok s' ∧ 1 < s'.i ∧ s'.buf.length = 6) ∧
        x86Mask s.gap s.prevMask = .ok 1 ∧
        ∀ addr, ∃ dest, ∀ turns, x86Dest addr 1 (turns + 2) 0x00120007 = .ok dest := by
  obtain ⟨hdecode, hreached⟩ := @x86_in_range 7 [0xE8, 0xE8, 0x07, 0x00, 0x12, 0x00] (by decide)
  let s : X86 := ⟨[0xE8, 0xE8, 0x07, 0x00, 0x12, 0x00], 0, 1, 1⟩
  have hfirst : x86Step 7 ⟨[0xE8, 0xE8, 0x07, 0x00, 0x12, 0x00], wordSize - 1, 0, 0⟩ = .ok s := by
    have hmask : x86Mask ((0 + wordSize - (wordSize - 1)) % wordSize) 0 = .ok 0 := rfl
    unfold x86Step
    dsimp only
    rw [hmask]
    rfl
  have hs : X86.Reached 7 [0xE8, 0xE8, 0x07, 0x00, 0x12, 0x00] s :=
    .step .start (show 0 < 2 by decide) hfirst
  obtain ⟨hstep, -, -, mask, n, allowed, hmask, -, -, -, -, -, -, -, -, hdest⟩ :=
    hreached s hs (by decide)
  have hone : x86Mask s.gap s.prevMask = .ok 1 := by decide +kernel
  have hfree : x86Barred s.buf s.i 1 = .ok false := rfl
  have hsource : u32le ((s.buf.drop (s.i + 1)).take 4) = 0x00120007 := rfl
  cases hmask.symm.trans hone
  rw [hsource] at hdest
  exact ⟨hdecode, s, hs, rfl, hstep, hone, hdest hfree⟩

end Squashfs.Xz
