import Squashfs.Xz.Format

/-!
# Numbers have one spelling

About `varint` (`src/xz.rs:340-356`). A number of the `.xz` format is its groups of seven bits, the
lowest first, each byte but the last marked as continued. `Minimal` says so of a byte string without
reference to any encoder: the value is the sum of the groups, and no group is there that adds
nothing (`minimal_iff`).

**`varint_exact`**: the decoder accepts exactly the minimal spellings of at most nine bytes, gives
their value and steps over them; a number has one such spelling, so no two are read alike, and
everything else is an error.
-/

namespace Squashfs.Xz

open Foundation

/-- The value of groups of seven bits, the lowest first. -/
def groupsValue : Bytes → Nat
  | [] => 0
  | b :: w => b.toNat % 128 + 128 * groupsValue w

/-- `w` spells `n` in groups of seven bits: every byte but the last is marked as continued, the last
is not, and it is zero only when it is alone. -/
inductive Minimal : Bytes → Nat → Prop
  | last (b : UInt8) (h : b.toNat < 128) : Minimal [b] b.toNat
  | more (b : UInt8) (h : 128 ≤ b.toNat) {w : Bytes} {n : Nat} (hw : Minimal w n) (hn : 0 < n) :
      Minimal (b :: w) (b.toNat % 128 + 128 * n)

/-- A spelling that is not a lone zero byte is a positive number's. -/
theorem groupsValue_pos {init : Bytes} {last : UInt8} (hlast : last.toNat < 128)
    (hzero : last ≠ 0) : 0 < groupsValue (init ++ [last]) := by
  induction init with
  | nil =>
    have hpos : last.toNat ≠ 0 := fun h => hzero (UInt8.toNat_inj.mp h)
    rw [List.nil_append, groupsValue, groupsValue]
    omega
  | cons b init ih =>
    rw [List.cons_append, groupsValue]
    omega

/-- The marks and the value say it all. -/
theorem minimal_iff {w : Bytes} {n : Nat} : Minimal w n ↔ groupsValue w = n ∧
    ∃ init last, w = init ++ [last] ∧ (∀ b ∈ init, 128 ≤ b.toNat) ∧ last.toNat < 128 ∧
      (last = 0 → init = []) := by
  constructor
  · intro h
    induction h with
    | last b h =>
      refine ⟨?_, [], b, rfl, nofun, h, fun _ => rfl⟩
      rw [groupsValue, groupsValue, Nat.mod_eq_of_lt h, Nat.mul_zero, Nat.add_zero]
    | more b h hw hn ih =>
      obtain ⟨hvalue, init, last, rfl, hinit, hlast, hzero⟩ := ih
      refine ⟨by rw [groupsValue, hvalue], b :: init, last, rfl,
        List.forall_mem_cons.mpr ⟨h, hinit⟩, hlast, fun h0 => ?_⟩
      rw [hzero h0, h0] at hvalue
      exact absurd hn (by rw [← hvalue]; decide)
  · rintro ⟨rfl, init, last, rfl, hinit, hlast, hzero⟩
    induction init with
    | nil =>
      rw [List.nil_append, groupsValue, groupsValue, Nat.mod_eq_of_lt hlast]
      exact .last last hlast
    | cons b init ih =>
      have hne : last ≠ 0 := fun h0 => absurd (hzero h0) (List.cons_ne_nil _ _)
      obtain ⟨hb, hinit⟩ := List.forall_mem_cons.mp hinit
      exact .more b hb (ih hinit fun h0 => absurd h0 hne) (groupsValue_pos hlast hne)

/-- **The encoder's bytes are the minimal spelling**, and there is no other of its length. -/
theorem minimal_iff_sevens {turns n : Nat} {w : Bytes} :
    Minimal w n ∧ w.length ≤ turns ↔ 0 < turns ∧ n < 128 ^ turns ∧ w = sevens turns n := by
  induction turns generalizing n w with
  | zero =>
    constructor
    · rintro ⟨h, hlen⟩
      cases h with
      | last => exact absurd hlen (by simp)
      | more => exact absurd hlen (by simp)
    · rintro ⟨h, -⟩
      exact absurd h (Nat.lt_irrefl 0)
  | succ turns ih =>
    constructor
    · rintro ⟨h, hlen⟩
      refine ⟨Nat.succ_pos turns, ?_⟩
      cases h with
      | last b h =>
        rw [sevens_of_lt h, UInt8.ofNat_toNat]
        exact ⟨Nat.lt_of_lt_of_le h (Nat.le_self_pow (Nat.succ_ne_zero _) _), rfl⟩
      | @more b h w m hw hm =>
        obtain ⟨hturns, hlt, rfl⟩ := ih.mp ⟨hw, Nat.le_of_succ_le_succ hlen⟩
        have hb := b.toNat_lt
        have hbyte : UInt8.ofNat ((b.toNat % 128 + 128 * m) % 128 + 128) = b := by
          rw [show (b.toNat % 128 + 128 * m) % 128 + 128 = b.toNat by omega, UInt8.ofNat_toNat]
        rw [sevens_of_ge (by omega), hbyte, show (b.toNat % 128 + 128 * m) / 128 = m by omega,
          Nat.pow_succ]
        exact ⟨by omega, rfl⟩
    · rintro ⟨-, hlt, rfl⟩
      by_cases hlast : n < 128
      · rw [sevens_of_lt hlast]
        have hbyte : (UInt8.ofNat n).toNat = n :=
          UInt8.toNat_ofNat_of_lt' (Nat.lt_trans hlast (by decide))
        have hmin := Minimal.last (UInt8.ofNat n) (by rw [hbyte]; exact hlast)
        rw [hbyte] at hmin
        exact ⟨hmin, Nat.succ_le_succ (Nat.zero_le _)⟩
      · rw [Nat.pow_succ] at hlt
        have hturns : 0 < turns := by
          rcases Nat.eq_zero_or_pos turns with rfl | h
          · rw [Nat.pow_zero] at hlt
            omega
          · exact h
        obtain ⟨hw, hlen⟩ := ih.mpr ⟨hturns, show n / 128 < 128 ^ turns by omega, rfl⟩
        have hbyte : (UInt8.ofNat (n % 128 + 128)).toNat = n % 128 + 128 :=
          UInt8.toNat_ofNat_of_lt' (by unfold UInt8.size; omega)
        have hmin := Minimal.more (UInt8.ofNat (n % 128 + 128)) (by rw [hbyte]; omega) hw (by omega)
        rw [hbyte, show (n % 128 + 128) % 128 + 128 * (n / 128) = n by omega] at hmin
        rw [sevens_of_ge hlast]
        exact ⟨hmin, Nat.succ_le_succ hlen⟩

theorem minimal_numberBytes {n : Nat} (h : n < 2 ^ 63) :
    Minimal (numberBytes n) n ∧ (numberBytes n).length ≤ 9 :=
  minimal_iff_sevens.mpr ⟨by decide, h, rfl⟩

theorem eq_numberBytes {w : Bytes} {n : Nat} (h : Minimal w n) (hlen : w.length ≤ 9) :
    n < 2 ^ 63 ∧ w = numberBytes n :=
  (minimal_iff_sevens.mp ⟨h, hlen⟩).2

theorem Minimal.length_pos {w : Bytes} {n : Nat} (h : Minimal w n) : 0 < w.length := by
  cases h <;> exact Nat.succ_pos _

/-- The decoder gives a number exactly for its minimal spelling. -/
theorem varint_iff {buf : Bytes} (hw : buf.length < wordSize) {pos k : Nat} {v : UInt64} :
    varint buf pos = .ok (v, pos + k) ↔
      (1 ≤ k ∧ k ≤ 9) ∧ v.toNat < 2 ^ 63 ∧
        ∃ w, w.length = k ∧ Spells buf pos w ∧ Minimal w v.toNat := by
  rw [varint_eq_ok hw]
  constructor
  · rintro ⟨hv, hs, hk⟩
    obtain ⟨hmin, hlen⟩ := minimal_numberBytes hv
    have hpos := hmin.length_pos
    exact ⟨⟨by omega, by omega⟩, hv, _, by omega, hs, hmin⟩
  · rintro ⟨⟨-, hk⟩, -, w, rfl, hs, hmin⟩
    obtain ⟨hv, rfl⟩ := eq_numberBytes hmin hk
    exact ⟨hv, hs, rfl⟩

/-- **Decoding is exact.** A number comes out exactly when its minimal spelling of at most nine
bytes is there, and the position moves over just that; so the encoder's bytes are read back, two
spellings read as one number are the same bytes, and where there is no spelling there is an error
and nothing else. -/
theorem varint_exact {buf : Bytes} (hw : buf.length ≤ isizeMax) (pos : Nat) :
    (∀ v k, varint buf pos = .ok (v, pos + k) ↔
      (1 ≤ k ∧ k ≤ 9) ∧ v.toNat < 2 ^ 63 ∧
        ∃ w, w.length = k ∧ Spells buf pos w ∧ Minimal w v.toNat) ∧
    (∀ v pos', varint buf pos = .ok (v, pos') → pos < pos') ∧
    (∀ v : UInt64, v.toNat < 2 ^ 63 → Spells buf pos (numberBytes v.toNat) →
      varint buf pos = .ok (v, pos + (numberBytes v.toNat).length)) ∧
    (∀ buf' : Bytes, buf'.length ≤ isizeMax → ∀ pos' k k' v,
      varint buf pos = .ok (v, pos + k) → varint buf' pos' = .ok (v, pos' + k') →
        k = k' ∧ (buf.drop pos).take k = (buf'.drop pos').take k') ∧
    ((∀ w n, Spells buf pos w → w.length ≤ 9 → ¬ Minimal w n) → ∃ e, varint buf pos = fails e) := by
  have hlt : ∀ {b : Bytes}, b.length ≤ isizeMax → b.length < wordSize := by
    intro b hb
    unfold isizeMax wordSize at *
    omega
  refine ⟨fun v k => varint_iff (hlt hw), fun v pos' h => ?_, fun v hv hs => ?_, ?_, fun h => ?_⟩
  · exact ((safe_varint (hlt hw) pos).of_eq h).1
  · exact (varint_eq_ok (hlt hw)).mpr ⟨hv, hs, rfl⟩
  · intro buf' hw' pos' k k' v h h'
    obtain ⟨⟨-, hk⟩, -, w, rfl, hs, hmin⟩ := (varint_iff (hlt hw)).mp h
    obtain ⟨⟨-, hk'⟩, -, w', rfl, hs', hmin'⟩ := (varint_iff (hlt hw')).mp h'
    obtain ⟨-, rfl⟩ := eq_numberBytes hmin hk
    obtain ⟨-, rfl⟩ := eq_numberBytes hmin' hk'
    rw [hs.window, hs'.window]
    exact ⟨rfl, rfl⟩
  · rcases (safe_varint (hlt hw) pos).returns.cases with ⟨⟨v, pos'⟩, hv⟩ | herr
    · obtain ⟨hsmall, hs, -⟩ := (varint_eq_ok (hlt hw)).mp hv
      obtain ⟨hmin, hlen⟩ := minimal_numberBytes hsmall
      exact absurd hmin (h _ _ hs hlen)
    · exact herr

theorem varint_exact_sample : varint [0xAC, 0x02, 0x07] 0 = .ok (300, 2) :=
  ((@varint_exact [0xAC, 0x02, 0x07] (by decide) 0).1 300 2).mpr
    ⟨by decide, by decide, [0xAC, 0x02], rfl, rfl,
      .more 0xAC (by decide) (.last 0x02 (by decide)) (by decide)⟩

end Squashfs.Xz
