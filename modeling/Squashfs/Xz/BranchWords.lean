import Squashfs.Foundation.Relocation
import Squashfs.Xz.Bcj

/-!
# The words of the fixed-pattern converters

The instructions that `src/xz.rs:452-559` matches, as words: PowerPC, IA-64, ARM, ARM-Thumb and
SPARC; which are branches, where their address is (`Bcj.codes`), and how a converter relocates it
(`relocated`). Adding the position undoes subtracting it when the position is aligned
(`relocated_add_sub`); a position that is not counts as the next that is (`relocated_roundUp`).

`Bcj.convertUnit` relocates the branches of one unit of bytes. One step of each converter is
`convertUnit` on the bytes it is at (`armStep_eq`, `powerpcStep_eq`, `sparcStep_eq`, `ia64Step_eq`,
`armthumbStep_eq`).
-/

namespace Squashfs.Xz

open Foundation
open Foundation.BranchCode

/-! ## Relocation -/

/-- The `w` bits of the address that `f` makes of `a`, which counts units of `2 ^ k` bytes. -/
def relocated (f : UInt32 → UInt32 → UInt32) (k w : Nat) (pos : UInt32) (a : Nat) : Nat :=
  (f (UInt32.ofNat (2 ^ k * a)) pos).toNat / 2 ^ k % 2 ^ w

theorem relocated_lt (f : UInt32 → UInt32 → UInt32) (k w : Nat) (pos : UInt32) (a : Nat) :
    relocated f k w pos a < 2 ^ w := Nat.mod_lt _ (Nat.two_pow_pos w)

/-- The scales and widths of the five converters. -/
def Scaled (k w : Nat) : Prop :=
  (k = 2 ∧ w = 24) ∨ (k = 2 ∧ w = 23) ∨ (k = 1 ∧ w = 22) ∨ (k = 4 ∧ w = 21)

theorem relocated_add_sub {k w : Nat} (h : Scaled k w) {pos : UInt32} (hpos : pos.toNat % 2 ^ k = 0)
    {a : Nat} (ha : a < 2 ^ w) :
    relocated (· + ·) k w pos (relocated (· - ·) k w pos a) = a := by
  have hp := pos.toNat_lt
  simp only [relocated, UInt32.toNat_add, UInt32.toNat_sub, UInt32.toNat_ofNat']
  rcases h with ⟨rfl, rfl⟩ | ⟨rfl, rfl⟩ | ⟨rfl, rfl⟩ | ⟨rfl, rfl⟩ <;> omega

theorem relocated_sub_add {k w : Nat} (h : Scaled k w) {pos : UInt32} (hpos : pos.toNat % 2 ^ k = 0)
    {a : Nat} (ha : a < 2 ^ w) :
    relocated (· - ·) k w pos (relocated (· + ·) k w pos a) = a := by
  have hp := pos.toNat_lt
  simp only [relocated, UInt32.toNat_add, UInt32.toNat_sub, UInt32.toNat_ofNat']
  rcases h with ⟨rfl, rfl⟩ | ⟨rfl, rfl⟩ | ⟨rfl, rfl⟩ | ⟨rfl, rfl⟩ <;> omega

/-- The next multiple of `2 ^ k`. -/
def roundUp (k : Nat) (pos : UInt32) : UInt32 :=
  UInt32.ofNat ((pos.toNat + (2 ^ k - 1)) / 2 ^ k * 2 ^ k)

theorem roundUp_aligned {k : Nat} (hk : k = 1 ∨ k = 2 ∨ k = 4) (pos : UInt32) :
    (roundUp k pos).toNat % 2 ^ k = 0 := by
  rw [roundUp, UInt32.toNat_ofNat']
  rcases hk with rfl | rfl | rfl <;> omega

/-- What follows the start in whole units follows its rounding too. -/
theorem roundUp_add {k : Nat} (hk : k = 1 ∨ k = 2 ∨ k = 4) (start n : UInt32)
    (hn : n.toNat % 2 ^ k = 0) : roundUp k (start + n) = roundUp k start + n := by
  have hs := start.toNat_lt
  have hlt := n.toNat_lt
  apply UInt32.toNat_inj.mp
  rw [UInt32.toNat_add, roundUp, roundUp, UInt32.toNat_ofNat', UInt32.toNat_ofNat', UInt32.toNat_add]
  rcases hk with rfl | rfl | rfl <;> omega

/-- A position between two units counts as the second. -/
theorem relocated_roundUp {k w : Nat} (h : Scaled k w) (pos : UInt32) (a : Nat) :
    relocated (· - ·) k w pos a = relocated (· - ·) k w (roundUp k pos) a := by
  have hp := pos.toNat_lt
  simp only [relocated, roundUp, UInt32.toNat_sub, UInt32.toNat_ofNat']
  rcases h with ⟨rfl, rfl⟩ | ⟨rfl, rfl⟩ | ⟨rfl, rfl⟩ | ⟨rfl, rfl⟩ <;> omega

/-! ## The five codes -/

/-- A field with one value. -/
def exactly (lo len v : Nat) : Pattern := ⟨lo, len, (· == v)⟩

/-- `bl`: primary opcode 18, relative, with link; the address counts words. -/
def powerpcSplit : Split where
  lo := 2
  len := 24
  hi := 26
  hiLen := 0
  pattern := [exactly 26 6 0x12, exactly 0 2 1]
  away := by unfold Away; decide
  around := by
    simp only [List.forall_mem_cons, Away, exactly]
    decide

/-- `BL`, in every condition but one the opcode byte 0xEB does not name. -/
def armSplit : Split where
  lo := 0
  len := 24
  hi := 24
  hiLen := 0
  pattern := [exactly 24 8 0xEB]
  away := by unfold Away; decide
  around := by
    simp only [List.forall_mem_cons, Away, exactly]
    decide

/-- The pair of a `BL`, the first halfword with the high half of the address. -/
def armthumbSplit : Split where
  lo := 16
  len := 11
  hi := 0
  hiLen := 11
  pattern := [exactly 11 5 0x1E, exactly 27 5 0x1F]
  away := by unfold Away; decide
  around := by
    simp only [List.forall_mem_cons, Away, exactly]
    decide

/-- Whether a bundle's template has a branch in `slot`. -/
def ia64Branches (slot template : Nat) : Bool :=
  (BRANCH_TABLE.getD template 0 >>> UInt32.ofNat slot) &&& 1 != 0

/-- The branch of a bundle's `slot`: a template that has one there, and the slot's own opcode. -/
def ia64Split (slot : Nat) : Split where
  lo := 5 + 41 * slot + 13
  len := 20
  hi := 5 + 41 * slot + 36
  hiLen := 1
  pattern := [⟨0, 5, ia64Branches slot⟩, exactly (5 + 41 * slot + 37) 4 5,
    exactly (5 + 41 * slot + 9) 3 0]
  away := by unfold Away; omega
  around := by
    simp only [List.forall_mem_cons, Away, exactly]
    refine ⟨?_, ?_, ?_, fun _ h => absurd h List.not_mem_nil⟩ <;> omega

/-- The slots of a bundle keep clear of each other. -/
theorem ia64_clear {s t : Nat} (h : s ≠ t) : Split.Clear (ia64Split s) (ia64Split t) where
  lo := by
    simp only [ia64Split, Away]
    omega
  hi := by
    simp only [ia64Split, Away]
    omega
  pattern := by
    simp only [ia64Split, List.forall_mem_cons, Away, exactly]
    refine ⟨?_, ?_, ?_, fun _ h => absurd h List.not_mem_nil⟩ <;> omega

/-- The 30 bits of a `call`'s displacement of 23 bits. -/
def sparcExtended (v : Nat) : Nat := v % 2 ^ 22 + 2 ^ 22 * (v / 2 ^ 22 % 2 * 255)

theorem sparcExtended_follows (x v : Nat)
    (h : follows [⟨22, 10, fun v => v == 0x100 || v == 0x1FF⟩] x = true) :
    follows [⟨22, 10, fun v => v == 0x100 || v == 0x1FF⟩] (setField x 0 30 (sparcExtended v)) =
      true := by
  simp only [follows, List.all_cons, List.all_nil, Bool.and_true, Bool.or_eq_true, beq_iff_eq,
    field_eq_div_mod, setField_eq, sparcExtended] at h ⊢
  rcases Nat.mod_two_eq_zero_or_one (v / 2 ^ 22) with hsign | hsign
  · rw [hsign]
    omega
  · rw [hsign]
    omega

theorem sparcExtended_address (x v : Nat) (hv : v < 2 ^ 23) :
    field (setField x 0 30 (sparcExtended v)) 0 23 = v := by
  simp only [field_eq_div_mod, setField_eq, sparcExtended]
  omega

theorem sparcExtended_self (x : Nat)
    (h : follows [⟨22, 10, fun v => v == 0x100 || v == 0x1FF⟩] x = true) :
    setField x 0 30 (sparcExtended (field x 0 23)) = x := by
  simp only [follows, List.all_cons, List.all_nil, Bool.and_true, Bool.or_eq_true, beq_iff_eq,
    field_eq_div_mod, setField_eq, sparcExtended] at h ⊢
  omega

theorem sparcExtended_testBit (x v i : Nat) (h : decide (i < 30) = false) :
    (setField x 0 30 (sparcExtended v)).testBit i = x.testBit i := by
  refine testBit_setField_outside (Or.inr ?_)
  have := of_decide_eq_false h
  omega

/-- `call`, with a displacement that fits in 23 bits: the eight bits above copy its sign. -/
def sparcCode : BranchCode where
  width := 23
  pattern := [⟨22, 10, fun v => v == 0x100 || v == 0x1FF⟩]
  address x := field x 0 23
  withAddress x v := setField x 0 30 (sparcExtended v)
  addressBit i := decide (i < 30)
  address_lt x := field_lt x 0 23
  follows_with := sparcExtended_follows
  address_with := sparcExtended_address
  with_with x _ _ := setField_setField x 0 30 _ _
  with_address := sparcExtended_self
  testBit_with := sparcExtended_testBit

/-- The branches of a unit. -/
def Bcj.codes : Bcj → List BranchCode
  | .x86 => []
  | .powerPc => [powerpcSplit.code]
  | .ia64 => [(ia64Split 0).code, (ia64Split 1).code, (ia64Split 2).code]
  | .arm => [armSplit.code]
  | .armThumb => [armthumbSplit.code]
  | .sparc => [sparcCode]

/-- Bytes in a unit. -/
def Bcj.unit : Bcj → Nat
  | .ia64 => 16
  | _ => 4

/-- The address counts units of `2 ^ scale` bytes, the converter's alignment. -/
def Bcj.scale : Bcj → Nat
  | .x86 => 0
  | .ia64 => 4
  | .armThumb => 1
  | _ => 2

def Bcj.width : Bcj → Nat
  | .x86 => 32
  | .ia64 => 21
  | .armThumb => 22
  | .sparc => 23
  | _ => 24

/-- How far the processor is ahead of the instruction an address counts from. -/
def Bcj.ahead : Bcj → UInt32
  | .arm => 8
  | .armThumb => 4
  | _ => 0

def Bcj.bigEndian : Bcj → Bool
  | .powerPc | .sparc => true
  | _ => false

theorem Bcj.scaled {kind : Bcj} (h : kind ≠ .x86) : Scaled kind.scale kind.width := by
  unfold Scaled
  cases kind
  case x86 => exact absurd rfl h
  all_goals decide

theorem Bcj.scale_cases {kind : Bcj} (h : kind ≠ .x86) :
    kind.scale = 1 ∨ kind.scale = 2 ∨ kind.scale = 4 := by
  cases kind
  case x86 => exact absurd rfl h
  all_goals decide

theorem Bcj.codes_apart (kind : Bcj) : kind.codes.Pairwise Apart := by
  cases kind
  case ia64 =>
    have hapart : ∀ {s t : Nat}, s ≠ t → Apart (ia64Split s).code (ia64Split t).code :=
      fun h => Split.apart (ia64_clear h) (ia64_clear h.symm)
    refine List.pairwise_cons.mpr ⟨?_, List.pairwise_pair.mpr (hapart (by decide))⟩
    rintro d (_ | ⟨_, _ | ⟨_, h⟩⟩)
    · exact hapart (by decide)
    · exact hapart (by decide)
    · cases h
  case x86 => exact List.Pairwise.nil
  all_goals exact List.pairwise_singleton _ _

theorem Bcj.codes_width {kind : Bcj} : ∀ c ∈ kind.codes, c.width = kind.width := by
  cases kind
  case x86 => exact fun _ h => absurd h List.not_mem_nil
  case ia64 =>
    simp only [Bcj.codes, List.forall_mem_cons]
    exact ⟨rfl, rfl, rfl, fun _ h => absurd h List.not_mem_nil⟩
  all_goals exact List.forall_mem_singleton.mpr rfl

/-! ## Units -/

/-- The number a unit of bytes spells. -/
def Bcj.word (kind : Bcj) (u : Bytes) : Nat := leNat (if kind.bigEndian then u.reverse else u)

/-- The unit that spells a number. -/
def Bcj.ofWord (kind : Bcj) (x : Nat) : Bytes :=
  if kind.bigEndian then (leBytes kind.unit x).reverse else leBytes kind.unit x

/-- Where bit `j` of a unit's byte `k` stands in its word. -/
def Bcj.bitAt (kind : Bcj) (k j : Nat) : Nat :=
  8 * (if kind.bigEndian then kind.unit - 1 - k else k) + j

/-- The unit at `pos` with the addresses of its branches relocated. -/
def Bcj.convertUnit (kind : Bcj) (f : UInt32 → UInt32 → UInt32) (start : UInt32) (pos : Nat)
    (u : Bytes) : Bytes :=
  kind.ofWord (moves kind.codes
    (relocated f kind.scale kind.width (start + UInt32.ofNat pos + kind.ahead)) (kind.word u))

section Units

variable {kind : Bcj} {u : Bytes}

theorem Bcj.ofWord_length (x : Nat) : (kind.ofWord x).length = kind.unit := by
  unfold Bcj.ofWord
  split
  · rw [List.length_reverse, leBytes_length]
  · rw [leBytes_length]

theorem Bcj.word_lt (hu : u.length = kind.unit) : kind.word u < 2 ^ (8 * kind.unit) := by
  have hlen : (if kind.bigEndian then u.reverse else u).length = kind.unit := by
    split
    · rw [List.length_reverse, hu]
    · exact hu
  have hlt := leNat_lt (if kind.bigEndian then u.reverse else u)
  rwa [hlen, show 256 = 2 ^ 8 from rfl, ← Nat.pow_mul] at hlt

theorem Bcj.ofWord_word (hu : u.length = kind.unit) : kind.ofWord (kind.word u) = u := by
  unfold Bcj.ofWord Bcj.word
  split
  · rw [← hu, ← List.length_reverse, leBytes_leNat, List.reverse_reverse]
  · rw [← hu, leBytes_leNat]

theorem Bcj.word_ofWord {x : Nat} (hx : x < 2 ^ (8 * kind.unit)) :
    kind.word (kind.ofWord x) = x := by
  rw [Nat.pow_mul, show 2 ^ 8 = 256 from rfl] at hx
  unfold Bcj.ofWord Bcj.word
  split
  · rw [List.reverse_reverse, leNat_leBytes hx]
  · rw [leNat_leBytes hx]

/-- The bits of a word are the bits of its bytes. -/
theorem Bcj.testBit_word (hu : u.length = kind.unit) {k j : Nat} (hj : j < 8) {b : UInt8}
    (hb : u[k]? = some b) : (kind.word u).testBit (kind.bitAt k j) = b.toNat.testBit j := by
  have hk := (List.getElem?_eq_some_iff.mp hb).1
  have hbyte : ∀ {w : Bytes} {i : Nat}, w[i]? = some b →
      (leNat w).testBit (8 * i + j) = b.toNat.testBit j := by
    intro w i hi
    rw [← leNat_byte hi, show 256 ^ i = 2 ^ (8 * i) by rw [Nat.pow_mul], show 256 = 2 ^ 8 from rfl,
      Nat.testBit_mod_two_pow, decide_eq_true hj, Bool.true_and, Nat.testBit_div_two_pow,
      Nat.add_comm]
  unfold Bcj.word Bcj.bitAt
  split
  · exact hbyte (by rw [List.getElem?_reverse (by omega), ← hb]; congr 1; omega)
  · exact hbyte hb

/-- Every bit of a word belongs to a byte. -/
theorem Bcj.bitAt_surj {i : Nat} (hi : i < 8 * kind.unit) :
    ∃ k j, k < kind.unit ∧ j < 8 ∧ kind.bitAt k j = i := by
  unfold Bcj.bitAt
  split
  · exact ⟨kind.unit - 1 - i / 8, i % 8, by omega, by omega, by omega⟩
  · exact ⟨i / 8, i % 8, by omega, by omega, by omega⟩

/-- A code's address lies in the unit. -/
theorem Bcj.addressBit_lt {c : BranchCode} (hc : c ∈ kind.codes) {i : Nat}
    (hi : c.addressBit i = true) : i < 8 * kind.unit := by
  have hsplit : ∀ {s : Split}, s.addressBit i = true → s.lo + s.len ≤ 8 * kind.unit →
      s.hi + s.hiLen ≤ 8 * kind.unit → i < 8 * kind.unit := by
    intro s hbit hlo hhi
    rcases Bool.or_eq_true_iff.mp hbit with h | h
    · have := of_decide_eq_true h
      omega
    · have := of_decide_eq_true h
      omega
  cases kind
  case x86 => cases hc
  case sparc =>
    cases List.mem_singleton.mp hc
    have := of_decide_eq_true hi
    simp only [Bcj.unit]
    omega
  case ia64 =>
    have hmem : c = (ia64Split 0).code ∨ c = (ia64Split 1).code ∨ c = (ia64Split 2).code := by
      simpa [Bcj.codes] using hc
    rcases hmem with rfl | rfl | rfl
    all_goals exact hsplit hi (by decide) (by decide)
  all_goals
    cases List.mem_singleton.mp hc
    exact hsplit hi (by decide) (by decide)

variable {f g : UInt32 → UInt32 → UInt32} {start : UInt32} {pos : Nat}

theorem Bcj.convertUnit_length : (kind.convertUnit f start pos u).length = kind.unit :=
  Bcj.ofWord_length _

theorem Bcj.word_convertUnit (hu : u.length = kind.unit) :
    kind.word (kind.convertUnit f start pos u) =
      moves kind.codes
        (relocated f kind.scale kind.width (start + UInt32.ofNat pos + kind.ahead)) (kind.word u) :=
  Bcj.word_ofWord (moves_lt (fun _ hc _ => Bcj.addressBit_lt hc) (Bcj.word_lt hu))

/-- A unit without a branch stays. -/
theorem Bcj.convertUnit_of_not (hu : u.length = kind.unit)
    (h : ∀ c ∈ kind.codes, c.isBranch (kind.word u) = false) :
    kind.convertUnit f start pos u = u := by
  rw [Bcj.convertUnit, moves_of_not h, Bcj.ofWord_word hu]

/-- Units are undone by a map of addresses that undoes theirs. -/
theorem Bcj.convertUnit_undo (hu : u.length = kind.unit)
    (hundo : ∀ a < 2 ^ kind.width,
      relocated g kind.scale kind.width (start + UInt32.ofNat pos + kind.ahead)
        (relocated f kind.scale kind.width (start + UInt32.ofNat pos + kind.ahead) a) = a) :
    kind.convertUnit g start pos (kind.convertUnit f start pos u) = u := by
  have hmoves : moves kind.codes
      (relocated g kind.scale kind.width (start + UInt32.ofNat pos + kind.ahead))
      (kind.word (kind.convertUnit f start pos u)) = kind.word u := by
    rw [Bcj.word_convertUnit hu]
    refine moves_moves kind.codes_apart (fun c hc a _ => ?_) fun c hc a ha => ?_
    · rw [Bcj.codes_width c hc]
      exact relocated_lt f _ _ _ a
    · rw [Bcj.codes_width c hc] at ha
      exact hundo a ha
  rw [Bcj.convertUnit, hmoves, Bcj.ofWord_word hu]

/-- A unit's branches stay branches. -/
theorem Bcj.isBranch_convertUnit (hu : u.length = kind.unit) {c : BranchCode}
    (hc : c ∈ kind.codes) :
    c.isBranch (kind.word (kind.convertUnit f start pos u)) = c.isBranch (kind.word u) := by
  rw [Bcj.word_convertUnit hu, isBranch_moves_mem kind.codes_apart hc]

/-- A bit of a unit that changes is one of the address of a branch in it. -/
theorem Bcj.testBit_convertUnit (hu : u.length = kind.unit) {k j : Nat} (hj : j < 8)
    {b b' : UInt8} (hb : u[k]? = some b) (hb' : (kind.convertUnit f start pos u)[k]? = some b')
    (hne : b'.toNat.testBit j ≠ b.toNat.testBit j) :
    ∃ c ∈ kind.codes, c.isBranch (kind.word u) = true ∧ c.addressBit (kind.bitAt k j) = true := by
  rw [← Bcj.testBit_word hu hj hb, ← Bcj.testBit_word Bcj.convertUnit_length hj hb',
    Bcj.word_convertUnit hu] at hne
  exact testBit_moves kind.codes_apart hne

end Units

end Squashfs.Xz
