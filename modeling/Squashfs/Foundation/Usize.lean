import Squashfs.Foundation.LittleEndian

/-!
# Words of the target's width

`usize` has 32 or 64 bits, and in release its arithmetic wraps and a conversion to it keeps the
low bits. `narrow` is what is left of a number, so a computation is exact as far as its results
are below `size`: **`narrow_eq_iff`** for one number, **`min_narrow_eq_iff`** for a number cut to
a length that was exact to begin with.

The readers of words and the pushing loops of the narrower targets are those of the wide one
where nothing wraps.
-/

namespace Squashfs.Foundation

/-- The width of a target's `usize`. -/
inductive Width where
  | w32
  | w64
  deriving Repr, DecidableEq

namespace Width

variable {ε α : Type} {w : Width} {n k a b i : Nat} {bytes : Bytes}

/-- The number of `usize` values. -/
def size : Width → Nat
  | .w32 => 2 ^ 32
  | .w64 => wordSize

/-- `n as usize`, and what `usize` arithmetic leaves of `n` in release. -/
def narrow (w : Width) (n : Nat) : Nat := n % w.size

/-- `a.checked_add(b)`. -/
def checkedAdd (w : Width) (a b : Nat) : Option Nat := if a + b < w.size then some (a + b) else none

/-- `a.checked_mul(b)`. -/
def checkedMul (w : Width) (a b : Nat) : Option Nat := if a * b < w.size then some (a * b) else none

/-- `u32::from_le_bytes(b[i..i + 4].try_into().unwrap())`. -/
def u32At (w : Width) (b : Bytes) (i : Nat) : Outcome ε UInt32 := do
  let s ← slice b i (w.narrow (i + 4))
  return u32le (← array 4 s)

/-- `u64::from_le_bytes(b[i..i + 8].try_into().unwrap())`. -/
def u64At (w : Width) (b : Bytes) (i : Nat) : Outcome ε UInt64 := do
  let s ← slice b i (w.narrow (i + 8))
  return u64le (← array 8 s)

theorem le_size (w : Width) : 2 ^ 32 ≤ w.size := by
  cases w <;> decide

theorem size_le (w : Width) : w.size ≤ wordSize := by
  cases w <;> decide

theorem narrow_lt (w : Width) (n : Nat) : w.narrow n < w.size :=
  Nat.mod_lt n (Nat.lt_of_lt_of_le (by decide) w.le_size)

theorem narrow_le (w : Width) (n : Nat) : w.narrow n ≤ n := Nat.mod_le n _

theorem narrow_of_lt (h : n < w.size) : w.narrow n = n := Nat.mod_eq_of_lt h

/-- **A number keeps its value exactly when it fits.** -/
theorem narrow_eq_iff : w.narrow n = n ↔ n < w.size :=
  ⟨fun h => h ▸ w.narrow_lt n, narrow_of_lt⟩

/-- **The lesser of a length and a narrowed number** is the lesser of the two exactly when the
number fits, or what is left of it reaches the length anyway. -/
theorem min_narrow_eq_iff : min k (w.narrow n) = min k n ↔ n < w.size ∨ k ≤ w.narrow n := by
  constructor
  · intro h
    rcases Nat.lt_or_ge n w.size with hlt | hge
    · exact .inl hlt
    · have hlt := w.narrow_lt n
      exact .inr (by omega)
  · rintro (hlt | hle)
    · rw [narrow_of_lt hlt]
    · have hn := w.narrow_le n
      omega

theorem checkedAdd_of_lt (h : a + b < w.size) : w.checkedAdd a b = some (a + b) := if_pos h

theorem checkedMul_of_lt (h : a * b < w.size) : w.checkedMul a b = some (a * b) := if_pos h

theorem u32At_ok (h : i + 4 ≤ bytes.length) (hw : i + 4 < w.size) :
    (w.u32At bytes i : Outcome ε UInt32) = .ok (u32le ((bytes.drop i).take 4)) := by
  unfold u32At
  rw [narrow_of_lt hw, slice_window_ok h, ok_bind, array_ok (window_length h)]
  rfl

theorem u64At_ok (h : i + 8 ≤ bytes.length) (hw : i + 8 < w.size) :
    (w.u64At bytes i : Outcome ε UInt64) = .ok (u64le ((bytes.drop i).take 8)) := by
  unfold u64At
  rw [narrow_of_lt hw, slice_window_ok h, ok_bind, array_ok (window_length h)]
  rfl

/-- On a wide target the readers are those of `LittleEndian.lean`. -/
theorem u32At_w64 (h : i + 4 < wordSize) :
    (Width.w64.u32At bytes i : Outcome ε UInt32) = Foundation.u32At bytes i := by
  unfold u32At Foundation.u32At
  rw [add64_ok h, narrow_of_lt h]
  rfl

theorem u64At_w64 (h : i + 8 < wordSize) :
    (Width.w64.u64At bytes i : Outcome ε UInt64) = Foundation.u64At bytes i := by
  unfold u64At Foundation.u64At
  rw [add64_ok h, narrow_of_lt h]
  rfl

@[simp] theorem avoids_u32At {e : ε} : Avoids e (w.u32At bytes i) := by
  simp [u32At]

@[simp] theorem avoids_u64At {e : ε} : Avoids e (w.u64At bytes i) := by
  simp [u64At]

end Width

theorem tabulate_congr {ε α : Type} {f g : Nat → Outcome ε α} {n : Nat} (h : ∀ i < n, f i = g i) :
    tabulate f n = tabulate g n := by
  induction n with
  | zero => rfl
  | succ n ih =>
    unfold tabulate
    rw [ih fun i hi => h i (Nat.lt_succ_of_lt hi), h n (Nat.lt_succ_self n)]

theorem avoids_tabulate {ε α : Type} {e : ε} {f : Nat → Outcome ε α} (hf : ∀ i, Avoids e (f i))
    (n : Nat) : Avoids e (tabulate f n) := by
  induction n with
  | zero => exact avoids_ok _
  | succ n ih =>
    unfold tabulate
    exact avoids_bind.mpr ⟨ih, fun out _ => avoids_bind.mpr ⟨hf n, fun x _ => avoids_pure _⟩⟩

end Squashfs.Foundation
