import Mathlib.Tactic.Ring
import Squashfs.Xz.Container

/-!
# The .xz format

Each field that `src/xz.rs` reads of a stream, with the lemma that its reader accepts exactly its
spellings: numbers in groups of seven bits (`varint_eq_ok`), zero padding to a multiple of four
(`zeroPadding_eq_ok`), the filter chain (`filters_eq_ok`), the optional sizes (`optVarint_eq_ok`),
and, of all of them, a block header (**`readHeader_eq_ok`**). The readers themselves are
`Container`'s.
-/

namespace Squashfs.Xz

open Foundation

/-! ## Numbers -/

/-- The bytes of `n` in at most `turns` groups of seven bits, the lowest first. -/
def sevens : (turns n : Nat) → Bytes
  | 0, _ => []
  | turns + 1, n =>
    if n < 128 then [UInt8.ofNat n] else UInt8.ofNat (n % 128 + 128) :: sevens turns (n / 128)

/-- The bytes of a number below `2 ^ 63`. -/
def numberBytes (n : Nat) : Bytes := sevens 9 n

theorem sevens_of_lt {turns n : Nat} (h : n < 128) : sevens (turns + 1) n = [UInt8.ofNat n] :=
  if_pos h

theorem sevens_of_ge {turns n : Nat} (h : ¬ n < 128) :
    sevens (turns + 1) n = UInt8.ofNat (n % 128 + 128) :: sevens turns (n / 128) := if_neg h

/-- The high bit of a byte says whether more follow. -/
theorem continues_iff (b : UInt8) : b &&& 0x80 = 0 ↔ b.toNat < 128 := by
  have h : ∀ n < 256, (UInt8.ofNat n &&& 0x80 = 0 ↔ n < 128) := by decide +kernel
  have hb := h b.toNat b.toNat_lt
  rwa [UInt8.ofNat_toNat] at hb

theorem low_seven (b : UInt8) : (b &&& 0x7F).toNat = b.toNat % 128 := by
  rw [UInt8.toNat_and]
  exact Nat.and_two_pow_sub_one_eq_mod b.toNat 7

/-- Seven more bits above the ones there. -/
theorem or_shifted {value : UInt64} {b : UInt8} {i : Nat} (hi : i < 9)
    (hv : value.toNat < 2 ^ (7 * i)) :
    (value ||| (b &&& 0x7F).toUInt64 <<< UInt64.ofNat (7 * i)).toNat =
      value.toNat + 2 ^ (7 * i) * (b.toNat % 128) := by
  have hshift : (UInt64.ofNat (7 * i)).toNat = 7 * i :=
    UInt64.toNat_ofNat_of_lt' (by unfold UInt64.size; omega)
  have hpow : 2 ^ (7 * i) ≤ 2 ^ 56 := Nat.pow_le_pow_right (by decide) (by omega)
  have hbits : b.toNat % 128 * 2 ^ (7 * i) < 2 ^ 64 := by
    have hle : b.toNat % 128 ≤ 127 := by omega
    exact Nat.lt_of_le_of_lt (Nat.mul_le_mul hle hpow) (by decide)
  have hlow : (b &&& 0x7F).toUInt64.toNat = b.toNat % 128 := low_seven b
  rw [UInt64.toNat_or, UInt64.toNat_shiftLeft, hshift, Nat.mod_eq_of_lt (by omega : 7 * i < 64),
    hlow, Nat.shiftLeft_eq, Nat.mod_eq_of_lt hbits, Nat.mul_comm (b.toNat % 128), Nat.or_comm,
    ← Nat.two_pow_add_eq_or_of_lt hv, Nat.add_comm]

/-- The first byte of a number says whether more follow, and holds its low bits. -/
theorem spells_sevens {buf : Bytes} {pos turns n : Nat} {b : UInt8} (hb : buf[pos]? = some b) :
    Spells buf pos (sevens (turns + 1) n) ↔ n < 128 ∧ b.toNat = n ∨
      128 ≤ n ∧ b.toNat = n % 128 + 128 ∧ Spells buf (pos + 1) (sevens turns (n / 128)) := by
  have hbyte : ∀ m < 256, (some b = some (UInt8.ofNat m) ↔ b.toNat = m) := by
    intro m hm
    rw [Option.some.injEq, ← UInt8.toNat_inj, UInt8.toNat_ofNat_of_lt' hm]
  by_cases hlast : n < 128
  · rw [sevens_of_lt hlast, spells_cons, hb, hbyte n (by omega)]
    constructor
    · rintro ⟨hn, -⟩
      exact .inl ⟨hlast, hn⟩
    · rintro (⟨-, hn⟩ | ⟨hge, -⟩)
      · exact ⟨hn, spells_nil _ _⟩
      · omega
  · rw [sevens_of_ge hlast, spells_cons, hb, hbyte _ (by omega)]
    constructor
    · rintro ⟨hn, hs⟩
      exact .inr ⟨Nat.le_of_not_lt hlast, hn, hs⟩
    · rintro (⟨hlt, -⟩ | ⟨-, hn, hs⟩)
      · exact absurd hlt hlast
      · exact ⟨hn, hs⟩

theorem not_spells_sevens {buf : Bytes} {pos turns n : Nat} (hb : buf[pos]? = none) :
    ¬ Spells buf pos (sevens (turns + 1) n) := by
  intro hs
  unfold sevens at hs
  split at hs
  all_goals
    rw [spells_cons, hb] at hs
    exact absurd hs.1 nofun

/-- What the turns of `varint` from `i` on read: a number's bytes, minimal unless they are the
first. -/
theorem varintLoop_eq_ok {buf : Bytes} (hw : buf.length < wordSize) {turns i : Nat}
    {value r : UInt64} {pos pos' : Nat} (hi : turns + i = 9) (hv : value.toNat < 2 ^ (7 * i)) :
    varintLoop buf turns i value pos = .ok (r, pos') ↔
      ∃ n, (i = 0 ∨ 0 < n) ∧ n < 128 ^ turns ∧ Spells buf pos (sevens turns n) ∧
        r.toNat = value.toNat + 2 ^ (7 * i) * n ∧ pos' = pos + (sevens turns n).length := by
  induction turns generalizing i value pos with
  | zero =>
    constructor
    · exact nofun
    · rintro ⟨n, hn, hlt, -⟩
      omega
  | succ turns ih =>
    unfold varintLoop
    rw [bind_eq_ok]
    rcases hb : buf[pos]? with _ | b
    · constructor
      · rintro ⟨_, h, -⟩
        cases h
      · rintro ⟨n, -, -, hs, -⟩
        exact absurd hs (not_spells_sevens hb)
    have hpos := (List.getElem?_eq_some_iff.mp hb).1
    have hbyte := b.toNat_lt
    have hvalue := @or_shifted value b i (by omega) hv
    have hshl : (shl64 (b &&& 0x7F).toUInt64 (7 * i) : Res UInt64) =
        .ok ((b &&& 0x7F).toUInt64 <<< UInt64.ofNat (7 * i)) := guarded_ok (by omega) _
    simp only [okOr, Except.ok.injEq, exists_eq_left', add64_ok (show pos + 1 < wordSize by omega),
      ok_bind, hshl, spells_sevens hb]
    generalize value ||| (b &&& 0x7F).toUInt64 <<< UInt64.ofNat (7 * i) = value' at hvalue ⊢
    by_cases hlast : b.toNat < 128
    · rw [if_pos ((continues_iff b).mpr hlast)]
      rw [Nat.mod_eq_of_lt hlast] at hvalue
      constructor
      · intro h
        split at h
        · cases h
        · rename_i hminimal
          cases h
          refine ⟨b.toNat, ?_, ?_, .inl ⟨hlast, rfl⟩, hvalue, by rw [sevens_of_lt hlast]; rfl⟩
          · by_contra hno
            rw [not_or, Nat.not_lt] at hno
            exact hminimal
              ⟨Nat.pos_of_ne_zero hno.1, UInt8.toNat_inj.mp (Nat.le_zero.mp hno.2)⟩
          · exact Nat.lt_of_lt_of_le hlast (Nat.le_self_pow (Nat.succ_ne_zero _) _)
      · rintro ⟨n, hn, -, ⟨hsmall, rfl⟩ | ⟨hge, hmore, -⟩, hr, rfl⟩
        · rw [if_neg, sevens_of_lt hlast, UInt64.toNat_inj.mp (hr.trans hvalue.symm)]
          · rfl
          · rintro ⟨hi0, rfl⟩
            have : (0 : UInt8).toNat = 0 := rfl
            omega
        · omega
    · rw [if_neg (fun h => hlast ((continues_iff b).mp h))]
      have hnext : 2 ^ (7 * (i + 1)) = 2 ^ (7 * i) * 128 := by
        rw [show 7 * (i + 1) = 7 * i + 7 by ring, Nat.pow_add]
      have hvalue' : value'.toNat < 2 ^ (7 * (i + 1)) := by
        have hle : b.toNat % 128 ≤ 127 := by omega
        have := Nat.mul_le_mul_left (2 ^ (7 * i)) hle
        rw [hvalue, hnext]
        omega
      rw [@ih (i + 1) value' (pos + 1) (by omega) hvalue', hvalue, hnext]
      constructor
      · rintro ⟨m, hm, hlt, hs, hr, rfl⟩
        have hm : 0 < m := hm.resolve_left (Nat.succ_ne_zero i)
        have hdiv : (m * 128 + b.toNat % 128) / 128 = m := by omega
        refine ⟨m * 128 + b.toNat % 128, .inr (by omega), by rw [Nat.pow_succ]; omega,
          .inr ⟨by omega, by omega, by rwa [hdiv]⟩, by rw [hr]; ring, ?_⟩
        rw [sevens_of_ge (by omega), hdiv, List.length_cons]
        omega
      · rintro ⟨n, -, hlt, ⟨hsmall, rfl⟩ | ⟨hge, hmore, hs⟩, hr, rfl⟩
        · exact absurd hsmall hlast
        · refine ⟨n / 128, .inr (by omega), by rw [Nat.pow_succ] at hlt; omega, hs, ?_, ?_⟩
          · have hsplit : n = n / 128 * 128 + b.toNat % 128 := by omega
            rw [hr]
            conv_lhs => rw [hsplit]
            ring
          · rw [sevens_of_ge (by omega), List.length_cons]
            omega

/-- **A number is read exactly when its bytes are there**, and it is below `2 ^ 63`. -/
theorem varint_eq_ok {buf : Bytes} (hw : buf.length < wordSize) {pos pos' : Nat} {v : UInt64} :
    varint buf pos = .ok (v, pos') ↔ v.toNat < 2 ^ 63 ∧ Spells buf pos (numberBytes v.toNat) ∧
      pos' = pos + (numberBytes v.toNat).length := by
  unfold varint
  rw [varintLoop_eq_ok hw rfl (by decide)]
  constructor
  · rintro ⟨n, -, hlt, hs, hv, rfl⟩
    have hv : v.toNat = n := by simpa using hv
    subst hv
    exact ⟨hlt, hs, rfl⟩
  · rintro ⟨hlt, hs, rfl⟩
    exact ⟨v.toNat, .inl rfl, hlt, hs, by simp, rfl⟩

/-! ## Padding -/

/-- The zero bytes that bring `n` bytes to a multiple of four. -/
def padTo4 (n : Nat) : Bytes := List.replicate ((4 - n % 4) % 4) 0

theorem padTo4_of_dvd {n : Nat} (h : n % 4 = 0) : padTo4 n = [] := by
  rw [padTo4, h]
  rfl

theorem padTo4_of_not_dvd {n : Nat} (h : n % 4 ≠ 0) : padTo4 n = 0 :: padTo4 (n + 1) := by
  rw [padTo4, padTo4, show (4 - n % 4) % 4 = (4 - (n + 1) % 4) % 4 + 1 by omega,
    List.replicate_succ]

theorem zeroPadding_eq_ok {why : String} {buf : Bytes} (hw : buf.length < wordSize)
    {start turns pos next : Nat} (hstart : start ≤ pos)
    (hturns : (pos - start) % 4 = 0 ∨ 4 ≤ turns + (pos - start) % 4) :
    zeroPadding why buf start turns pos = .ok next ↔
      Spells buf pos (padTo4 (pos - start)) ∧ next = pos + (padTo4 (pos - start)).length := by
  induction turns generalizing pos with
  | zero =>
    have hdvd : (pos - start) % 4 = 0 := by omega
    unfold zeroPadding
    rw [sub64_ok hstart, ok_bind, if_pos hdvd, padTo4_of_dvd hdvd, pure_eq_ok, Except.ok.injEq]
    exact ⟨fun h => ⟨spells_nil _ _, h.symm⟩, fun h => h.2.symm⟩
  | succ turns ih =>
    unfold zeroPadding
    rw [sub64_ok hstart, ok_bind]
    by_cases hdvd : (pos - start) % 4 = 0
    · rw [if_pos hdvd, padTo4_of_dvd hdvd, pure_eq_ok, Except.ok.injEq]
      exact ⟨fun h => ⟨spells_nil _ _, h.symm⟩, fun h => h.2.symm⟩
    · rw [if_neg hdvd, padTo4_of_not_dvd hdvd, spells_cons, List.length_cons]
      by_cases hzero : buf[pos]? = some 0
      · have hlt := (List.getElem?_eq_some_iff.mp hzero).1
        rw [if_neg (not_not_intro hzero), add64_ok (by omega), ok_bind,
          ih (by omega) (by omega), show pos + 1 - start = pos - start + 1 by omega]
        constructor
        · rintro ⟨hs, rfl⟩
          exact ⟨⟨hzero, hs⟩, by omega⟩
        · rintro ⟨⟨-, hs⟩, rfl⟩
          exact ⟨hs, by omega⟩
      · rw [if_pos hzero]
        constructor
        · intro h
          cases h
        · intro h
          exact absurd h.1.1 hzero

/-! ## Filters -/

/-- The id the format gives a converter. -/
def Bcj.id : Bcj → Nat
  | .x86 => 0x04
  | .powerPc => 0x05
  | .ia64 => 0x06
  | .arm => 0x07
  | .armThumb => 0x08
  | .sparc => 0x09

theorem fromId_eq_ok {id : UInt64} {kind : Bcj} : Bcj.fromId id = .ok kind ↔ id.toNat = kind.id := by
  unfold Bcj.fromId
  constructor
  · intro h
    repeat' split at h
    all_goals first
      | cases h; subst id; rfl
      | cases h
  · intro h
    have hid : id = UInt64.ofNat kind.id := by rw [← h, UInt64.ofNat_toNat]
    subst hid
    cases kind <;> rfl

/-- A converter, and the start offset its properties give, if they give one. -/
structure Converter where
  kind : Bcj
  start : Option UInt32
  deriving Repr, DecidableEq

namespace Converter

def props (c : Converter) : Bytes :=
  match c.start with
  | none => []
  | some s => u32Bytes s

def offset (c : Converter) : UInt32 := c.start.getD 0

/-- The start offset is one the converter can have. -/
def Aligned (c : Converter) : Prop := c.kind.alignment ∣ c.offset.toNat

end Converter

theorem bcjStart_eq_ok {props : Bytes} {kind : Bcj} {offset : UInt32} :
    bcjStart props = .ok offset ↔
      ∃ c : Converter, c.kind = kind ∧ props = c.props ∧ offset = c.offset := by
  constructor
  · intro h
    unfold bcjStart at h
    split at h
    · cases h
      exact ⟨⟨kind, none⟩, rfl, rfl, rfl⟩
    · cases h
      exact ⟨⟨kind, some _⟩, rfl, (u32Bytes_u32le rfl).symm, rfl⟩
    · cases h
  · rintro ⟨c, rfl, rfl, rfl⟩
    rcases c with ⟨kind, _ | s⟩
    · rfl
    · have hlen := u32Bytes_length s
      have hs := u32le_u32Bytes s
      show bcjStart (u32Bytes s) = .ok s
      match hb : u32Bytes s, hlen with
      | [a, b, c, d], _ =>
        rw [hb] at hs
        exact congrArg Except.ok hs

theorem checkLzma2_eq_ok {props : Bytes} :
    checkLzma2 props = .ok () ↔ ∃ dictionary ≤ 40, props = [dictionary] := by
  unfold checkLzma2
  split
  · rename_i code
    by_cases hle : code ≤ 40 <;> simp [hle, pure_eq_ok]
  · rename_i hne
    constructor
    · exact nofun
    · rintro ⟨code, -, rfl⟩
      exact absurd rfl (hne code)

/-- A filter: its id, and its properties after their length. -/
def filterBytes (id : Nat) (props : Bytes) : Bytes :=
  numberBytes id ++ (numberBytes props.length ++ props)

/-- A filter's bytes, as they are read: its id, the length of its properties, its properties. -/
theorem filterBytes_read {body : Bytes} (hw : body.length ≤ isizeMax) {pos last : Nat}
    {id : UInt64} {props : Bytes} :
    (∃ pos₁ len pos₂, varint body pos = .ok (id, pos₁) ∧ varint body pos₁ = .ok (len, pos₂) ∧
        checkedAdd pos₂ len.toNat = some last ∧ getSlice body pos₂ last = some props) ↔
      id.toNat < 2 ^ 63 ∧ last ≤ body.length ∧ Spells body pos (filterBytes id.toNat props) ∧
        last = pos + (filterBytes id.toNat props).length := by
  have hlt : body.length < wordSize := by unfold isizeMax wordSize at *; omega
  unfold filterBytes
  rw [spells_append, spells_append, List.length_append, List.length_append, ← Nat.add_assoc,
    ← Nat.add_assoc]
  constructor
  · rintro ⟨_, len, _, hid, hlen, hadd, hget⟩
    obtain ⟨hsmall, hs₁, rfl⟩ := (varint_eq_ok hlt).mp hid
    obtain ⟨-, hs₂, rfl⟩ := (varint_eq_ok hlt).mp hlen
    obtain ⟨hle, hs₃, hend⟩ := getSlice_eq_some_spells.mp hget
    unfold checkedAdd at hadd
    split at hadd
    · cases hadd
      have hprops : props.length = len.toNat := by omega
      rw [hprops]
      exact ⟨hsmall, hle, ⟨hs₁, hs₂, hs₃⟩, rfl⟩
    · cases hadd
  · rintro ⟨hid, hle, ⟨hs₁, hs₂, hs₃⟩, rfl⟩
    have hprops : (UInt64.ofNat props.length).toNat = props.length :=
      UInt64.toNat_ofNat_of_lt' (by unfold isizeMax UInt64.size at *; omega)
    refine ⟨_, UInt64.ofNat props.length, _, (varint_eq_ok hlt).mpr ⟨hid, hs₁, rfl⟩,
      (varint_eq_ok hlt).mpr ⟨?_, ?_, rfl⟩, ?_, getSlice_eq_some_spells.mpr ⟨hle, ?_, ?_⟩⟩
    · rw [hprops]
      unfold isizeMax at hw
      omega
    · rwa [hprops]
    · rw [hprops]
      exact if_pos (by omega)
    · rwa [hprops]
    · rw [hprops]

/-- The filter at `pos` is `id` with its properties, and `last` is where it ends. -/
structure FilterAt (body : Bytes) (pos : Nat) (id : UInt64) (props : Bytes) (last : Nat) :
    Prop where
  small : id.toNat < 2 ^ 63
  inside : last ≤ body.length
  spelled : Spells body pos (filterBytes id.toNat props)
  stop : last = pos + (filterBytes id.toNat props).length

/-- A filter is its id and properties, then what its place in the chain makes of them. -/
theorem readFilter_eq_ok {body : Bytes} (hw : body.length ≤ isizeMax) {filters i pos : Nat}
    {bcj : Option (Bcj × UInt32)} {r : Option (Bcj × UInt32) × Nat} :
    readFilter body filters (bcj, pos) i = .ok r ↔
      ∃ id props last, FilterAt body pos id props last ∧ (do
        if (← add64 i 1) = filters then
          if id = FILTER_LZMA2 then do
            checkLzma2 props
            return (bcj, last)
          else bad "xz: the chain does not end in LZMA2"
        else if id = FILTER_LZMA2 then bad "xz: LZMA2 before the end of the chain"
        else if bcj.isSome then bad "xz: more than one filter before LZMA2"
        else do
          let start ← bcjStart props
          return (some (← Bcj.fromId id, start), last) : Res (Option (Bcj × UInt32) × Nat)) =
            .ok r := by
  unfold readFilter
  constructor
  · intro h
    obtain ⟨⟨id, pos₁⟩, hid, h⟩ := bind_eq_ok.mp h
    obtain ⟨⟨len, pos₂⟩, hlen, h⟩ := bind_eq_ok.mp h
    obtain ⟨last, hadd, h⟩ := bind_eq_ok.mp h
    obtain ⟨props, hget, h⟩ := bind_eq_ok.mp h
    obtain ⟨h1, h2, h3, h4⟩ := (filterBytes_read hw).mp
      ⟨pos₁, len, pos₂, hid, hlen, okOr_eq_ok.mp hadd, okOr_eq_ok.mp hget⟩
    exact ⟨id, props, last, ⟨h1, h2, h3, h4⟩, h⟩
  · rintro ⟨id, props, last, hat, h⟩
    obtain ⟨pos₁, len, pos₂, hid, hlen, hadd, hget⟩ :=
      (filterBytes_read hw).mpr ⟨hat.small, hat.inside, hat.spelled, hat.stop⟩
    refine bind_eq_ok.mpr ⟨(id, pos₁), hid, bind_eq_ok.mpr ⟨(len, pos₂), hlen, ?_⟩⟩
    exact bind_eq_ok.mpr ⟨last, okOr_eq_ok.mpr hadd, bind_eq_ok.mpr ⟨props, okOr_eq_ok.mpr hget, h⟩⟩

/-- The last filter is LZMA2. -/
theorem readFilter_last {body : Bytes} (hw : body.length ≤ isizeMax) {i pos last : Nat}
    (hi : i < 4) {bcj bcj' : Option (Bcj × UInt32)} :
    readFilter body (i + 1) (bcj, pos) i = .ok (bcj', last) ↔
      ∃ dictionary ≤ 40, FilterAt body pos FILTER_LZMA2 [dictionary] last ∧ bcj' = bcj := by
  rw [readFilter_eq_ok hw, add64_ok (by unfold wordSize; omega)]
  simp only [ok_bind, if_true]
  constructor
  · rintro ⟨id, props, last', hat, h⟩
    split at h
    · rename_i hid
      subst hid
      obtain ⟨_, hprops, hret⟩ := bind_eq_ok.mp h
      obtain ⟨dictionary, hle, rfl⟩ := checkLzma2_eq_ok.mp hprops
      cases hret
      exact ⟨dictionary, hle, hat, rfl⟩
    · cases h
  · rintro ⟨dictionary, hle, hat, rfl⟩
    refine ⟨_, _, last, hat, ?_⟩
    rw [if_pos rfl, checkLzma2_eq_ok.mpr ⟨dictionary, hle, rfl⟩]
    rfl

/-- A filter before the last is the only converter. -/
theorem readFilter_before {body : Bytes} (hw : body.length ≤ isizeMax) {filters i pos last : Nat}
    (hi : i < 4) (hne : i + 1 ≠ filters) {bcj bcj' : Option (Bcj × UInt32)} :
    readFilter body filters (bcj, pos) i = .ok (bcj', last) ↔
      bcj = none ∧ ∃ c : Converter, FilterAt body pos (UInt64.ofNat c.kind.id) c.props last ∧
        bcj' = some (c.kind, c.offset) := by
  rw [readFilter_eq_ok hw, add64_ok (by unfold wordSize; omega)]
  simp only [ok_bind, if_neg hne]
  constructor
  · rintro ⟨id, props, last', hat, h⟩
    split at h
    · cases h
    · split at h
      · cases h
      · rename_i hnone
        obtain ⟨offset, hstart, hfilter⟩ := bind_eq_ok.mp h
        obtain ⟨kind, hkind, hret⟩ := bind_eq_ok.mp hfilter
        cases hret
        obtain ⟨c, rfl, rfl, rfl⟩ := (@bcjStart_eq_ok _ kind _).mp hstart
        have hid : UInt64.ofNat c.kind.id = id := by
          rw [← fromId_eq_ok.mp hkind, UInt64.ofNat_toNat]
        exact ⟨by simpa using hnone, c, by rwa [hid], rfl⟩
  · rintro ⟨rfl, c, hat, rfl⟩
    have hne21 : UInt64.ofNat c.kind.id ≠ FILTER_LZMA2 := by
      cases c.kind <;> decide
    have hkind : Bcj.fromId (UInt64.ofNat c.kind.id) = .ok c.kind :=
      fromId_eq_ok.mpr (by cases c.kind <;> rfl)
    refine ⟨_, _, last, hat, ?_⟩
    rw [if_neg hne21, bcjStart_eq_ok.mpr ⟨c, rfl, rfl, rfl⟩, hkind]
    rfl

theorem kind_id_toNat (kind : Bcj) : (UInt64.ofNat kind.id).toNat = kind.id := by
  cases kind <;> rfl

/-- The filters of a block: LZMA2, after a converter if there is one. -/
def chainBytes (converter : Option Converter) (dictionary : UInt8) : Bytes :=
  (match converter with
    | none => []
    | some c => filterBytes c.kind.id c.props) ++ filterBytes 0x21 [dictionary]

/-- How many filters those are. -/
def filterCount (converter : Option Converter) : Nat := if converter.isSome then 2 else 1

/-- **The filters are read exactly as a chain of one or two.** -/
theorem filters_eq_ok {body : Bytes} (hw : body.length ≤ isizeMax) {n pos last : Nat}
    (hn : 0 < n) (hn' : n ≤ 4) {bcj : Option (Bcj × UInt32)} :
    (List.range n).foldlM (readFilter body n) (none, pos) = .ok (bcj, last) ↔
      ∃ converter, ∃ dictionary ≤ 40, n = filterCount converter ∧ last ≤ body.length ∧
        Spells body pos (chainBytes converter dictionary) ∧
        last = pos + (chainBytes converter dictionary).length ∧
        bcj = converter.map fun c => (c.kind, c.offset) := by
  rcases (by omega : n = 1 ∨ 1 + 1 < n + 1) with rfl | hmore
  · rw [show List.range 1 = [0] from rfl]
    simp only [List.foldlM_cons, List.foldlM_nil, bind_pure]
    rw [readFilter_last hw (by decide)]
    constructor
    · rintro ⟨dictionary, hle, hat, rfl⟩
      exact ⟨none, dictionary, hle, rfl, hat.inside, hat.spelled, hat.stop, rfl⟩
    · rintro ⟨converter, dictionary, hle, hcount, hin, hs, hstop, rfl⟩
      cases converter with
      | none => exact ⟨dictionary, hle, ⟨by decide, hin, hs, hstop⟩, rfl⟩
      | some c => cases hcount
  · obtain ⟨m, rfl⟩ : ∃ m, n = m + 2 := ⟨n - 2, by omega⟩
    have hrange : List.range (m + 2) = 0 :: 1 :: (List.range m).map (· + 2) := by
      rw [List.range_succ_eq_map, List.range_succ_eq_map]
      simp
    rw [hrange, List.foldlM_cons, bind_eq_ok]
    constructor
    · rintro ⟨⟨bcj₁, pos₁⟩, h₁, h₂⟩
      obtain ⟨-, c, hat₁, rfl⟩ := (readFilter_before hw (by decide) (by omega)).mp h₁
      rw [List.foldlM_cons, bind_eq_ok] at h₂
      obtain ⟨⟨bcj₂, pos₂⟩, h₂, h₃⟩ := h₂
      by_cases hlast : m = 0
      · subst hlast
        obtain ⟨dictionary, hle, hat₂, rfl⟩ := (readFilter_last hw (by decide)).mp h₂
        cases h₃
        have hs₁ := hat₁.spelled
        have hstop₁ := hat₁.stop
        rw [kind_id_toNat] at hs₁ hstop₁
        have hs₂ := hat₂.spelled
        have hstop₂ := hat₂.stop
        rw [hstop₁] at hs₂
        rw [hstop₁, show FILTER_LZMA2.toNat = 0x21 from rfl] at hstop₂
        refine ⟨some c, dictionary, hle, rfl, hat₂.inside, spells_append.mpr ⟨hs₁, hs₂⟩, ?_, rfl⟩
        rw [chainBytes, List.length_append]
        omega
      · obtain ⟨hnone, -⟩ := (readFilter_before hw (by decide) (by omega)).mp h₂
        cases hnone
    · rintro ⟨converter, dictionary, hle, hcount, hin, hs, hstop, rfl⟩
      cases converter with
      | none =>
        unfold filterCount at hcount
        simp at hcount
      | some c =>
        have hm : m = 0 := by
          unfold filterCount at hcount
          simpa using hcount
        subst hm
        obtain ⟨hs₁, hs₂⟩ := spells_append.mp hs
        rw [chainBytes, List.length_append] at hstop
        have hin₁ : pos + (filterBytes c.kind.id c.props).length ≤ body.length := by omega
        refine ⟨(some (c.kind, c.offset), pos + (filterBytes c.kind.id c.props).length),
          (readFilter_before hw (by decide) (by decide)).mpr
            ⟨rfl, c, ⟨?_, hin₁, ?_, ?_⟩, rfl⟩, ?_⟩
        · rw [kind_id_toNat]
          cases c.kind <;> decide
        · rw [kind_id_toNat]
          exact hs₁
        · rw [kind_id_toNat]
        · simp only [List.range_zero, List.map_nil, List.foldlM_cons, List.foldlM_nil, bind_pure]
          refine (readFilter_last hw (by decide)).mpr
            ⟨dictionary, hle, ⟨by decide, hin, hs₂, ?_⟩, rfl⟩
          rw [hstop, Nat.add_assoc]
          rfl

/-! ## Block headers -/

/-- A number that may be left out. -/
def optNumberBytes : Option Nat → Bytes
  | none => []
  | some n => numberBytes n

theorem optVarint_eq_ok {present : Bool} {body : Bytes} (hw : body.length < wordSize)
    {pos pos' : Nat} {o : Option UInt64} :
    optVarint present body pos = .ok (o, pos') ↔
      ∃ n : Option Nat, n.isSome = present ∧ (∀ v ∈ n, v < 2 ^ 63) ∧
        Spells body pos (optNumberBytes n) ∧ pos' = pos + (optNumberBytes n).length ∧
        o = n.map UInt64.ofNat := by
  unfold optVarint
  cases present with
  | false =>
    rw [if_neg Bool.false_ne_true, pure_eq_ok]
    constructor
    · intro h
      cases h
      exact ⟨none, rfl, nofun, spells_nil _ _, rfl, rfl⟩
    · rintro ⟨_ | n, h, -, -, rfl, rfl⟩
      · rfl
      · cases h
  | true =>
    rw [if_pos rfl, bind_eq_ok]
    constructor
    · rintro ⟨⟨v, pos₁⟩, hv, hret⟩
      cases hret
      obtain ⟨hlt, hs, rfl⟩ := (varint_eq_ok hw).mp hv
      refine ⟨some v.toNat, rfl, ?_, hs, rfl, ?_⟩
      · intro n hn
        cases hn
        exact hlt
      · exact congrArg some UInt64.ofNat_toNat.symm
    · rintro ⟨_ | n, h, hlt, hs, rfl, rfl⟩
      · cases h
      · have hn : n < 2 ^ 63 := hlt n rfl
        have htoNat : (UInt64.ofNat n).toNat = n :=
          UInt64.toNat_ofNat_of_lt' (Nat.lt_trans hn (by decide))
        exact ⟨(UInt64.ofNat n, _), (varint_eq_ok hw).mpr
          ⟨by rwa [htoNat], by rw [htoNat]; exact hs, rfl⟩, by rw [htoNat]; rfl⟩

/-- A block header as the format has it. -/
structure Header where
  sizeByte : UInt8
  compressedSize : Option Nat
  uncompressedSize : Option Nat
  converter : Option Converter
  dictionary : UInt8
  padding : Nat
  deriving Repr, DecidableEq

namespace Header

/-- The flag byte that goes with its fields. -/
def flags (h : Header) : UInt8 :=
  (if h.compressedSize.isSome then 0x40 else 0) |||
    (if h.uncompressedSize.isSome then 0x80 else 0) ||| if h.converter.isSome then 1 else 0

/-- A header without its checksum. -/
def body (h : Header) : Bytes :=
  [h.sizeByte, h.flags] ++ (optNumberBytes h.compressedSize ++
    (optNumberBytes h.uncompressedSize ++
      (chainBytes h.converter h.dictionary ++ List.replicate h.padding 0)))

/-- The length the size byte gives. -/
def len (h : Header) : Nat := (h.sizeByte.toNat + 1) * 4

def encode (codecs : Codecs) (h : Header) : Bytes := h.body ++ u32Bytes (codecs.crc32 h.body)

/-- What the decoder makes of it. -/
def toBlockHeader (h : Header) : BlockHeader :=
  ⟨h.len, h.compressedSize.map UInt64.ofNat, h.uncompressedSize.map UInt64.ofNat,
    h.converter.map fun c => (c.kind, c.offset)⟩

/-- Its numbers are those the format can write, and its dictionary one LZMA2 can have. -/
structure InRange (h : Header) : Prop where
  compressed : ∀ n ∈ h.compressedSize, n < 2 ^ 63
  uncompressed : ∀ n ∈ h.uncompressedSize, n < 2 ^ 63
  dictionary : h.dictionary ≤ 40

/-- A header that is as long as it says, and is not the index's first byte. -/
structure Sound (h : Header) : Prop extends InRange h where
  size : h.sizeByte ≠ 0
  length : h.body.length + 4 = h.len

theorem body_length (h : Header) : h.body.length = 2 + (optNumberBytes h.compressedSize).length +
    (optNumberBytes h.uncompressedSize).length + (chainBytes h.converter h.dictionary).length +
    h.padding := by
  simp only [body, List.length_append, List.length_replicate, List.length_cons, List.length_nil]
  omega

theorem flags_fields (h : Header) : h.flags &&& 0x3C = 0 ∧
    (h.flags &&& 0x40 != 0) = h.compressedSize.isSome ∧
    (h.flags &&& 0x80 != 0) = h.uncompressedSize.isSome ∧
    (h.flags &&& 0x03).toNat + 1 = filterCount h.converter := by
  unfold flags filterCount
  cases h.compressedSize.isSome <;> cases h.uncompressedSize.isSome <;>
    cases h.converter.isSome <;> decide

/-- A flag byte with no reserved bit set is the one its bits say. -/
theorem eq_flags {h : Header} {b : UInt8} (hreserved : b &&& 0x3C = 0)
    (hc : h.compressedSize.isSome = (b &&& 0x40 != 0))
    (hu : h.uncompressedSize.isSome = (b &&& 0x80 != 0))
    (hf : (b &&& 0x03).toNat + 1 = filterCount h.converter) : b = h.flags := by
  have hall : ∀ n < 256, ∀ f : Bool, UInt8.ofNat n &&& 0x3C = 0 →
      (UInt8.ofNat n &&& 0x03).toNat + 1 = (if f then 2 else 1) → UInt8.ofNat n =
        (if (UInt8.ofNat n &&& 0x40 != 0) = true then 0x40 else 0) |||
          (if (UInt8.ofNat n &&& 0x80 != 0) = true then 0x80 else 0) ||| if f then 1 else 0 := by
    decide +kernel
  have hb := hall b.toNat b.toNat_lt h.converter.isSome
  rw [UInt8.ofNat_toNat] at hb
  unfold flags
  rw [hc, hu]
  exact hb hreserved hf

end Header

/-- Bytes of which none is not zero. -/
theorem any_ne_zero {l : Bytes} :
    (¬ l.any (· ≠ 0) = true) ↔ ∃ k, l = List.replicate k 0 := by
  rw [List.any_eq_true]
  constructor
  · intro h
    refine ⟨l.length, List.eq_replicate_iff.mpr ⟨rfl, fun x hx => ?_⟩⟩
    by_contra hne
    exact h ⟨x, hx, decide_eq_true hne⟩
  · rintro ⟨k, rfl⟩ ⟨x, hx, hne⟩
    exact absurd (List.eq_of_mem_replicate hx) (of_decide_eq_true hne)

theorem readHeaderBody_eq_ok {body : Bytes} (hw : body.length ≤ isizeMax) {headerLen : Nat}
    {r : BlockHeader} :
    readHeaderBody headerLen body = .ok r ↔
      ∃ h : Header, h.InRange ∧ body = h.body ∧ r = { h.toBlockHeader with len := headerLen } := by
  have hlt : body.length < wordSize := by unfold isizeMax wordSize at *; omega
  unfold readHeaderBody
  constructor
  · intro hok
    obtain ⟨flags, hflags, hok⟩ := bind_eq_ok.mp hok
    rw [index_eq_ok] at hflags
    split at hok
    · cases hok
    rename_i hreserved
    obtain ⟨⟨o₁, pos₁⟩, h₁, hok⟩ := bind_eq_ok.mp hok
    obtain ⟨⟨o₂, pos₂⟩, h₂, hok⟩ := bind_eq_ok.mp hok
    obtain ⟨⟨bcj, pos₃⟩, h₃, hok⟩ := bind_eq_ok.mp hok
    obtain ⟨rest, hrest, hok⟩ := bind_eq_ok.mp hok
    obtain ⟨compressedSize, hc, hc63, hs₁, rfl, rfl⟩ := (optVarint_eq_ok hlt).mp h₁
    obtain ⟨uncompressedSize, hu, hu63, hs₂, rfl, rfl⟩ := (optVarint_eq_ok hlt).mp h₂
    have hcount : (flags &&& 0x03).toNat + 1 ≤ 4 := by
      have : (flags &&& 0x03).toNat ≤ 3 := by
        rw [UInt8.toNat_and]
        exact Nat.and_le_right
      omega
    obtain ⟨converter, dictionary, hdict, hf, hin, hs₃, rfl, rfl⟩ :=
      (filters_eq_ok hw (Nat.succ_pos _) hcount).mp h₃
    obtain ⟨-, rfl⟩ := sliceFrom_eq_ok.mp hrest
    split at hok
    · cases hok
    rename_i hzero
    cases hok
    obtain ⟨sizeByte, hhead⟩ : ∃ sizeByte, body = sizeByte :: flags :: body.drop 2 := by
      rcases body with _ | ⟨sizeByte, _ | ⟨_, _⟩⟩
      · cases hflags
      · cases hflags
      · cases hflags
        exact ⟨sizeByte, rfl⟩
    obtain ⟨padding, hpadding⟩ := any_ne_zero.mp hzero
    refine ⟨⟨sizeByte, compressedSize, uncompressedSize, converter, dictionary, padding⟩,
      ⟨hc63, hu63, hdict⟩, ?_, rfl⟩
    have hreserved : flags &&& 0x3C = 0 := by simpa using hreserved
    rw [Header.body, ← Header.eq_flags hreserved hc hu hf]
    unfold Spells at hs₁ hs₂ hs₃
    conv_lhs => rw [hhead, hs₁, hs₂, hs₃, hpadding]
    rfl
  · rintro ⟨h, hrange, rfl, rfl⟩
    obtain ⟨hreserved, hc, hu, hf⟩ := h.flags_fields
    have hall : Spells h.body 0 h.body := spells_self _
    have hlen := h.body_length
    unfold Header.body at hall
    simp only [spells_append, Nat.zero_add] at hall
    obtain ⟨-, hs₁, hs₂, hs₃, hs₄⟩ := hall
    rw [index_eq_ok.mpr (show h.body[1]? = some h.flags from rfl), ok_bind,
      if_neg (not_not_intro hreserved)]
    refine bind_eq_ok.mpr ⟨_, (optVarint_eq_ok hlt).mpr
      ⟨h.compressedSize, hc.symm, hrange.compressed, hs₁, rfl, rfl⟩, ?_⟩
    refine bind_eq_ok.mpr ⟨_, (optVarint_eq_ok hlt).mpr
      ⟨h.uncompressedSize, hu.symm, hrange.uncompressed, hs₂, rfl, rfl⟩, ?_⟩
    refine bind_eq_ok.mpr ⟨_, (filters_eq_ok hw (Nat.succ_pos _) ?_).mpr
      ⟨h.converter, h.dictionary, hrange.dictionary, hf, ?_, hs₃, rfl, rfl⟩, ?_⟩
    · refine Nat.le_trans (Nat.le_of_eq hf) ?_
      unfold filterCount
      split <;> decide
    · exact Nat.le_of_add_right_le (Nat.le_of_eq hlen.symm)
    · obtain ⟨hle, hrest⟩ := spells_all.mp ⟨hs₄, by rw [List.length_replicate]; exact hlen.symm⟩
      exact bind_eq_ok.mpr ⟨_, sliceFrom_ok hle, if_neg (any_ne_zero.mpr ⟨_, hrest⟩)⟩

/-- **A header is read exactly when it is there**, whole and with its checksum. -/
theorem readHeader_eq_ok {codecs : Codecs} {stream : Bytes} (hw : stream.length ≤ isizeMax)
    {pos : Nat} {sizeByte : UInt8} (hbyte : stream[pos]? = some sizeByte) (hsize : sizeByte ≠ 0)
    {r : BlockHeader} :
    readHeader codecs stream pos sizeByte = .ok r ↔
      ∃ h : Header, h.Sound ∧ Spells stream pos (h.encode codecs) ∧ r = h.toBlockHeader := by
  have hpos := (List.getElem?_eq_some_iff.mp hbyte).1
  have hsize256 := sizeByte.toNat_lt
  have hne : sizeByte.toNat ≠ 0 := fun h0 => hsize (UInt8.toNat_inj.mp h0)
  unfold readHeader
  dsimp only
  generalize hlen : (sizeByte.toNat + 1) * 4 = headerLen
  rw [add64_ok (by unfold isizeMax wordSize at *; omega), ok_bind, bind_eq_ok]
  constructor
  · rintro ⟨header, hget, hok⟩
    obtain ⟨hle, hs, hend⟩ := getSlice_eq_some_spells.mp (okOr_eq_ok.mp hget)
    have hheader : header.length = headerLen := by omega
    rw [sub64_ok (by omega), ok_bind, sliceFrom_ok (by omega), ok_bind, ok_bind,
      slice_ok (Nat.zero_le _) (by omega), ok_bind,
      array_ok (by rw [List.length_drop]; omega), ok_bind, Nat.sub_zero, List.drop_zero] at hok
    split at hok
    · cases hok
    rename_i hcrc
    have hbody : (header.take (headerLen - 4)).length = headerLen - 4 := by
      rw [List.length_take]
      omega
    obtain ⟨h, hrange, hbytes, rfl⟩ :=
      (readHeaderBody_eq_ok (by rw [hbody]; unfold isizeMax; omega)).mp hok
    have hstored : header.drop (headerLen - 4) = u32Bytes (codecs.crc32 h.body) := by
      rw [← hbytes, not_not.mp hcrc, u32Bytes_u32le (by rw [List.length_drop]; omega)]
    have hencode : header = h.encode codecs := by
      rw [Header.encode, ← hstored, ← hbytes, List.take_append_drop]
    have hfirst : h.sizeByte = sizeByte := by
      rw [hencode] at hs
      have hhead := (spells_cons.mp (show Spells stream pos (h.sizeByte :: _) from hs)).1
      exact Option.some.inj (hhead.symm.trans hbyte)
    have hsame : h.len = headerLen := by rw [Header.len, hfirst, hlen]
    refine ⟨h, ⟨hrange, hfirst ▸ hsize, ?_⟩, hencode ▸ hs, ?_⟩
    · rw [← hbytes, hbody, hsame]
      omega
    · rw [Header.toBlockHeader, hsame]
  · rintro ⟨h, hsound, hs, rfl⟩
    have hfirst : h.sizeByte = sizeByte := by
      have hhead := (spells_cons.mp (show Spells stream pos (h.sizeByte :: _) from hs)).1
      exact Option.some.inj (hhead.symm.trans hbyte)
    have hsame : h.len = headerLen := by rw [Header.len, hfirst, hlen]
    have hlength := hsound.length
    have hencode : (h.encode codecs).length = headerLen := by
      rw [Header.encode, List.length_append, u32Bytes_length, hlength, hsame]
    have hle := hs.le (List.ne_nil_of_length_pos (by omega))
    have hbody : h.body.length = headerLen - 4 := by omega
    have hdrop : (h.encode codecs).drop (headerLen - 4) = u32Bytes (codecs.crc32 h.body) := by
      rw [Header.encode, List.drop_left' hbody]
    have htake : (h.encode codecs).take (headerLen - 4) = h.body := by
      rw [Header.encode, List.take_left' hbody]
    refine ⟨h.encode codecs,
      okOr_eq_ok.mpr (getSlice_eq_some_spells.mpr ⟨by omega, hs, by omega⟩), ?_⟩
    rw [sub64_ok (by omega), ok_bind, sliceFrom_ok (by omega), ok_bind, ok_bind,
      slice_ok (Nat.zero_le _) (by omega), ok_bind, hdrop, array_ok (u32Bytes_length _), ok_bind,
      Nat.sub_zero, List.drop_zero, htake, u32le_u32Bytes, if_neg (not_not_intro rfl)]
    refine (readHeaderBody_eq_ok ?_).mpr ⟨h, hsound.toInRange, rfl, ?_⟩
    · rw [hbody]
      unfold isizeMax
      omega
    · rw [← hsame]
      rfl

/-! ## Chunks stored raw -/

def crc32Bit (crc : UInt32) : UInt32 :=
  if crc &&& 1 ≠ 0 then (crc >>> 1) ^^^ 0xEDB88320 else crc >>> 1

/-- CRC-32, reflected. -/
def crc32 (data : Bytes) : UInt32 :=
  ~~~(data.foldl (fun crc b => Nat.iterate crc32Bit 8 (crc ^^^ b.toUInt32)) (~~~0))

theorem rawChunk_le (hi lo : UInt8) (rest : Bytes) :
    ∀ c ∈ [rest.take (hi.toNat * 256 + lo.toNat + 1)], c.length ≤ isizeMax := by
  have := hi.toNat_lt
  have := lo.toNat_lt
  simp only [List.mem_singleton, forall_eq, List.length_take, isizeMax]
  omega

/-- LZMA2 of one chunk that is stored raw, and its end marker. -/
def rawChunk : Bytes → Decoding × Nat
  | 1 :: hi :: lo :: rest =>
    if (hi.toNat * 256 + lo.toNat + 1) < rest.length then
      (⟨[rest.take (hi.toNat * 256 + lo.toNat + 1)],
        rest[hi.toNat * 256 + lo.toNat + 1]? = some 0, rawChunk_le hi lo rest⟩,
        hi.toNat * 256 + lo.toNat + 5)
    else (⟨[], false, Decoding.nil_le⟩, 0)
  | _ => (⟨[], false, Decoding.nil_le⟩, 0)

theorem rawChunk_position_le (input : Bytes) : (rawChunk input).2 ≤ input.length := by
  unfold rawChunk
  split
  · split
    · simp only [List.length_cons]
      omega
    · exact Nat.zero_le _
  · exact Nat.zero_le _

/-- The codecs of streams whose chunks are stored raw. -/
def rawCodecs : Codecs :=
  { Codecs.none with
    lzma2 := rawChunk
    crc32 := crc32
    lzma2_position_le := rawChunk_position_le }

end Squashfs.Xz
