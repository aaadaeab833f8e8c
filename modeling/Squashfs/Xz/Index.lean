import Squashfs.Xz.Number

/-!
# The index and the footer

About `check_index_and_footer` (`src/xz.rs:269-317`). After the last block come the index, which
repeats the sizes of every block, and the footer, which repeats the index's length and the header's
flags. `indexOf` spells the index of a list of records.

**`checkIndexAndFooter_iff`**: the tail of a stream is accepted exactly when it is the index of its
blocks' records, the footer of that index, and zero bytes in fours; so two tails that are accepted
for the same blocks differ by such zeros only.
-/

namespace Squashfs.Xz

open Foundation

variable {codecs : Codecs}

/-- A record of the index: the unpadded size of a block and its size decoded. -/
def pairBytes (r : UInt64 × UInt64) : Bytes := numberBytes r.1.toNat ++ numberBytes r.2.toNat

/-- The index of `records`, without its padding and checksum. -/
def recordFields (records : List (UInt64 × UInt64)) : Bytes :=
  0 :: (numberBytes records.length ++ records.flatMap pairBytes)

def paddedFields (records : List (UInt64 × UInt64)) : Bytes :=
  recordFields records ++ padTo4 (recordFields records).length

/-- The index of `records`. -/
def indexOf (codecs : Codecs) (records : List (UInt64 × UInt64)) : Bytes :=
  paddedFields records ++ u32Bytes (codecs.crc32 (paddedFields records))

/-- The footer of a stream with flags `flags`; `backward` gives the length of its index. -/
def footerBytes (codecs : Codecs) (backward : UInt32) (flags : Bytes) : Bytes :=
  u32Bytes (codecs.crc32 (u32Bytes backward ++ flags)) ++
    (u32Bytes backward ++ (flags ++ [0x59, 0x5A]))

theorem indexOf_length (codecs : Codecs) (records : List (UInt64 × UInt64)) :
    (indexOf codecs records).length = (paddedFields records).length + 4 := by
  rw [indexOf, List.length_append, u32Bytes_length]

theorem checkRecord_eq_ok {tail : Bytes} (hw : tail.length < wordSize) {pos next : Nat}
    {r : UInt64 × UInt64} :
    checkRecord tail pos r = .ok next ↔ (r.1.toNat < 2 ^ 63 ∧ r.2.toNat < 2 ^ 63) ∧
      Spells tail pos (pairBytes r) ∧ next = pos + (pairBytes r).length := by
  unfold checkRecord pairBytes
  rw [spells_append, List.length_append, ← Nat.add_assoc]
  constructor
  · intro h
    obtain ⟨⟨v, pos₁⟩, hv, h⟩ := bind_eq_ok.mp h
    obtain ⟨hsmall₁, hs₁, rfl⟩ := (varint_eq_ok hw).mp hv
    dsimp only at h
    split at h
    · cases h
    rename_i heq₁
    obtain ⟨⟨w, pos₂⟩, hw', h⟩ := bind_eq_ok.mp h
    obtain ⟨hsmall₂, hs₂, rfl⟩ := (varint_eq_ok hw).mp hw'
    dsimp only at h
    split at h
    · cases h
    rename_i heq₂
    obtain rfl := not_not.mp heq₁
    obtain rfl := not_not.mp heq₂
    cases h
    exact ⟨⟨hsmall₁, hsmall₂⟩, ⟨hs₁, hs₂⟩, rfl⟩
  · rintro ⟨⟨hsmall₁, hsmall₂⟩, ⟨hs₁, hs₂⟩, rfl⟩
    refine bind_eq_ok.mpr ⟨_, (varint_eq_ok hw).mpr ⟨hsmall₁, hs₁, rfl⟩, ?_⟩
    dsimp only
    rw [if_neg (not_not_intro rfl)]
    refine bind_eq_ok.mpr ⟨_, (varint_eq_ok hw).mpr ⟨hsmall₂, hs₂, rfl⟩, ?_⟩
    dsimp only
    rw [if_neg (not_not_intro rfl)]
    rfl

theorem checkRecords_eq_ok {tail : Bytes} (hw : tail.length < wordSize)
    {records : List (UInt64 × UInt64)} {pos next : Nat} :
    records.foldlM (checkRecord tail) pos = .ok next ↔
      (∀ r ∈ records, r.1.toNat < 2 ^ 63 ∧ r.2.toNat < 2 ^ 63) ∧
        Spells tail pos (records.flatMap pairBytes) ∧
        next = pos + (records.flatMap pairBytes).length := by
  induction records generalizing pos with
  | nil =>
    rw [List.foldlM_nil, pure_eq_ok, Except.ok.injEq]
    exact ⟨fun h => ⟨nofun, spells_nil _ _, h.symm⟩, fun h => h.2.2.symm⟩
  | cons r records ih =>
    rw [List.foldlM_cons, bind_eq_ok, List.flatMap_cons, spells_append, List.length_append,
      List.forall_mem_cons, ← Nat.add_assoc]
    simp only [checkRecord_eq_ok hw, ih]
    constructor
    · rintro ⟨_, ⟨hr, hs, rfl⟩, hrs, hss, rfl⟩
      exact ⟨⟨hr, hrs⟩, ⟨hs, hss⟩, rfl⟩
    · rintro ⟨⟨hr, hrs⟩, ⟨hs, hss⟩, rfl⟩
      exact ⟨_, ⟨hr, hs, rfl⟩, hrs, hss, rfl⟩

/-- The footer is accepted exactly when it is there, with zero bytes in fours after it. -/
theorem checkFooter_eq_ok {tail flags : Bytes} (hw : tail.length ≤ isizeMax) {indexLen : Nat}
    (hi : indexLen ≤ tail.length) (hflags : flags.length = 2) :
    checkFooter codecs tail indexLen flags = .ok () ↔
      ∃ backward k, (backward.toNat + 1) * 4 = indexLen ∧ tail.drop indexLen =
        footerBytes codecs backward flags ++ List.replicate (4 * k) 0 := by
  unfold checkFooter
  rw [add64_ok (by unfold isizeMax wordSize at *; omega), ok_bind]
  constructor
  · intro h
    obtain ⟨footer, hfooter, h⟩ := bind_eq_ok.mp h
    obtain ⟨hle, hs, hlen⟩ := getSlice_eq_some_spells.mp (okOr_eq_ok.mp hfooter)
    have hlen : footer.length = 12 := by omega
    rw [sliceFrom_ok (by omega), ok_bind, slice_ok (by omega) (by omega),
      slice_ok (by omega) (by omega), slice_ok (by omega) (by omega),
      u32At_ok (by omega) (by unfold wordSize; omega), sliceFrom_ok hle] at h
    match footer, hlen with
    | [a0, a1, a2, a3, a4, a5, a6, a7, a8, a9, a10, a11], _ =>
      simp only [ok_bind, ite_eq_iff, reduceCtorEq, and_false, false_or, not_not, not_or,
        pure_eq_ok, and_true] at h
      obtain ⟨hmagic, hcrc, hflags, hback, hmod, hzero⟩ := h
      obtain ⟨m, hm⟩ := any_ne_zero.mp hzero
      have hlen := congrArg List.length hm
      rw [List.length_replicate] at hlen
      rw [hlen] at hmod
      refine ⟨u32le [a4, a5, a6, a7], m / 4, hback, ?_⟩
      have hbackward : u32Bytes (u32le [a4, a5, a6, a7]) = [a4, a5, a6, a7] := u32Bytes_u32le rfl
      have hmagic : [a10, a11] = [0x59, 0x5A] := hmagic
      have hcrc : u32Bytes (codecs.crc32 [a4, a5, a6, a7, a8, a9]) = [a0, a1, a2, a3] := hcrc
      have hflags : [a8, a9] = flags := hflags
      have hrest : tail.drop (indexLen + 12) = List.replicate (4 * (m / 4)) 0 := by
        rw [show 4 * (m / 4) = m by omega]
        exact hm
      subst hflags
      rw [hs, footerBytes, hbackward, ← hmagic]
      show _ ++ tail.drop (indexLen + 12) = _
      rw [hrest]
      exact congrArg (· ++ _) (congrArg (· ++ [a4, a5, a6, a7, a8, a9, a10, a11]) hcrc.symm)
  · rintro ⟨backward, k, hlen, htail⟩
    obtain ⟨g0, g1, rfl⟩ := List.length_eq_two.mp hflags
    have hcrcLen := u32Bytes_length (codecs.crc32 (u32Bytes backward ++ [g0, g1]))
    have hbackLen := u32Bytes_length backward
    have hback := u32le_u32Bytes backward
    obtain ⟨hs, hrest⟩ := spells_of_drop htail
    have hfooter : (footerBytes codecs backward [g0, g1]).length = 12 := by
      rw [footerBytes, List.length_append, List.length_append, hcrcLen, hbackLen]
      rfl
    have hle := hs.le (List.ne_nil_of_length_eq_add_one hfooter)
    rw [hfooter] at hle hrest
    refine bind_eq_ok.mpr ⟨_, okOr_eq_ok.mpr
      (getSlice_eq_some_spells.mpr ⟨hle, hs, by rw [hfooter]⟩), ?_⟩
    unfold footerBytes at hfooter ⊢
    generalize hc : u32Bytes (codecs.crc32 (u32Bytes backward ++ [g0, g1])) = crc at *
    generalize u32Bytes backward = back at *
    match crc, hcrcLen, back, hbackLen with
    | [a0, a1, a2, a3], _, [a4, a5, a6, a7], _ =>
      rw [sliceFrom_ok (by simp), ok_bind, slice_ok (by omega) (by simp),
        slice_ok (by omega) (by simp), slice_ok (by omega) (by simp),
        u32At_ok (by simp) (by unfold wordSize; omega), sliceFrom_ok hle, hrest]
      have hback : ((u32le [a4, a5, a6, a7]).toNat + 1) * 4 = indexLen := by
        rw [hback]
        exact hlen
      have hpadding : ¬ ((List.replicate (4 * k) (0 : UInt8)).length % 4 ≠ 0 ∨
          (List.replicate (4 * k) (0 : UInt8)).any (· ≠ 0) = true) := by
        rw [List.length_replicate, not_or]
        exact ⟨by omega, any_ne_zero.mpr ⟨_, rfl⟩⟩
      refine (if_neg (not_not_intro rfl)).trans ((if_neg (not_not_intro hc)).trans ?_)
      refine (if_neg (not_not_intro rfl)).trans ((if_neg (not_not_intro hback)).trans ?_)
      exact if_neg hpadding

/-- **The index and the footer are read exactly when they are there.** -/
theorem checkIndexAndFooter_eq_ok_records {tail flags : Bytes} (hw : tail.length ≤ isizeMax)
    (hzero : tail[0]? = some 0) (hflags : flags.length = 2) {records : List (UInt64 × UInt64)}
    (hcount : records.length < 2 ^ 63) :
    checkIndexAndFooter codecs tail records flags = .ok () ↔
      (∀ r ∈ records, r.1.toNat < 2 ^ 63 ∧ r.2.toNat < 2 ^ 63) ∧
        ∃ backward k, (backward.toNat + 1) * 4 = (indexOf codecs records).length ∧
          tail = indexOf codecs records ++
            (footerBytes codecs backward flags ++ List.replicate (4 * k) 0) := by
  have hlt : tail.length < wordSize := by unfold isizeMax wordSize at *; omega
  have hcountNat : (UInt64.ofNat records.length).toNat = records.length :=
    UInt64.toNat_ofNat_of_lt' (Nat.lt_trans hcount (by decide))
  have hfields : (recordFields records).length =
      1 + (numberBytes records.length).length + (records.flatMap pairBytes).length := by
    rw [recordFields, List.length_cons, List.length_append]
    omega
  have hpaddedLen : (paddedFields records).length =
      (recordFields records).length + (padTo4 (recordFields records).length).length :=
    List.length_append
  have hindexLen := indexOf_length codecs records
  unfold checkIndexAndFooter
  constructor
  · intro h
    obtain ⟨⟨count, pos₁⟩, hvarint, h⟩ := bind_eq_ok.mp h
    obtain ⟨-, hs₁, rfl⟩ := (varint_eq_ok hlt).mp hvarint
    dsimp only at h
    split at h
    · cases h
    rename_i heq
    obtain rfl := not_not.mp heq
    rw [hcountNat] at hs₁ h
    obtain ⟨pos₂, hrecords, h⟩ := bind_eq_ok.mp h
    obtain ⟨hrange, hs₂, hpos₂⟩ := (checkRecords_eq_ok hlt).mp hrecords
    rw [← hfields] at hpos₂
    subst hpos₂
    obtain ⟨pos₃, hpadding, h⟩ := bind_eq_ok.mp h
    obtain ⟨hs₃, rfl⟩ := (zeroPadding_eq_ok hlt (Nat.zero_le _) (by omega)).mp hpadding
    obtain ⟨indexLen, hlen, h⟩ := bind_eq_ok.mp h
    obtain ⟨-, rfl⟩ := add64_eq_ok.mp hlen
    obtain ⟨stored, hstored, h⟩ := bind_eq_ok.mp h
    obtain ⟨hle, hs₄, hstoredLen⟩ := getSlice_eq_some_spells.mp (okOr_eq_ok.mp hstored)
    obtain ⟨covered, hcovered, hfooter⟩ := bind_eq_ok.mp h
    rw [Nat.sub_zero] at hs₃ hs₄ hle hcovered hfooter hstoredLen
    have hbody : Spells tail 0 (paddedFields records) := by
      refine spells_append.mpr ⟨spells_cons.mpr ⟨hzero, spells_append.mpr ⟨hs₁, hs₂⟩⟩, ?_⟩
      rw [Nat.zero_add]
      exact hs₃
    rw [← hpaddedLen] at hs₄ hle hcovered hfooter hstoredLen
    obtain ⟨-, rfl⟩ := slice_eq_ok.mp hcovered
    rw [Nat.sub_zero, hbody.window] at hfooter
    split at hfooter
    · cases hfooter
    rename_i hcrc
    obtain rfl := not_not.mp hcrc
    have hindex : Spells tail 0 (indexOf codecs records) :=
      spells_append.mpr ⟨hbody, by rw [Nat.zero_add]; exact hs₄⟩
    obtain ⟨backward, k, hback, hrest⟩ := (checkFooter_eq_ok hw hle hflags).mp hfooter
    refine ⟨hrange, backward, k, by rw [hback, hindexLen], ?_⟩
    have hwhole : tail = indexOf codecs records ++ tail.drop (indexOf codecs records).length := by
      have := hindex
      rwa [Spells, List.drop_zero, Nat.zero_add] at this
    rw [hindexLen, hrest] at hwhole
    exact hwhole
  · rintro ⟨hrange, backward, k, hback, htail⟩
    obtain ⟨hindex, hrest⟩ :=
      @spells_of_drop tail (indexOf codecs records) _ 0 (by rw [List.drop_zero]; exact htail)
    have hle := hindex.le (List.ne_nil_of_length_eq_add_one hindexLen)
    obtain ⟨hbody, hstored⟩ := spells_append.mp hindex
    obtain ⟨hfieldsAt, hpad⟩ := spells_append.mp hbody
    obtain ⟨-, hnumbers⟩ := spells_cons.mp hfieldsAt
    obtain ⟨hs₁, hs₂⟩ := spells_append.mp hnumbers
    rw [Nat.zero_add] at hpad hstored hs₁ hs₂ hle hrest
    refine bind_eq_ok.mpr ⟨(UInt64.ofNat records.length, 1 + (numberBytes records.length).length),
      (varint_eq_ok hlt).mpr ?_, ?_⟩
    · rw [hcountNat]
      exact ⟨hcount, hs₁, rfl⟩
    dsimp only
    rw [if_neg (not_not_intro rfl)]
    refine bind_eq_ok.mpr ⟨_, (checkRecords_eq_ok hlt).mpr ⟨hrange, hs₂, hfields⟩, ?_⟩
    refine bind_eq_ok.mpr ⟨_, (zeroPadding_eq_ok hlt (Nat.zero_le _) (by omega)).mpr
      ⟨by rw [Nat.sub_zero]; exact hpad, rfl⟩, ?_⟩
    rw [Nat.sub_zero, ← hpaddedLen]
    refine bind_eq_ok.mpr ⟨_, add64_ok (by omega), ?_⟩
    refine bind_eq_ok.mpr ⟨_, okOr_eq_ok.mpr (getSlice_eq_some_spells.mpr
      ⟨by omega, hstored, by rw [u32Bytes_length]⟩), ?_⟩
    refine bind_eq_ok.mpr
      ⟨paddedFields records, slice_eq_ok_spells.mpr ⟨by omega, hbody, by omega⟩, ?_⟩
    rw [if_neg (not_not_intro rfl), ← hindexLen]
    exact (checkFooter_eq_ok hw hle hflags).mpr ⟨backward, k, hback, hrest⟩

/-- The tail of a stream whose blocks have `records`, with `4 * k` zero bytes after the footer. -/
def tailOf (codecs : Codecs) (records : List (UInt64 × UInt64)) (flags : Bytes) (k : Nat) : Bytes :=
  indexOf codecs records ++
    (footerBytes codecs (UInt32.ofNat ((indexOf codecs records).length / 4 - 1)) flags ++
      List.replicate (4 * k) 0)

theorem padTo4_mod (n : Nat) : (n + (padTo4 n).length) % 4 = 0 := by
  rw [padTo4, List.length_replicate]
  omega

/-- The index has a length that is a positive multiple of four. -/
theorem indexOf_mod (codecs : Codecs) (records : List (UInt64 × UInt64)) :
    4 ≤ (indexOf codecs records).length ∧ (indexOf codecs records).length % 4 = 0 := by
  have hmod := padTo4_mod (recordFields records).length
  rw [indexOf_length, paddedFields, List.length_append]
  omega

/-- Each record takes a byte at least. -/
theorem length_le_flatMap {records : List (UInt64 × UInt64)}
    (h : ∀ r ∈ records, r.1.toNat < 2 ^ 63 ∧ r.2.toNat < 2 ^ 63) :
    records.length ≤ (records.flatMap pairBytes).length := by
  induction records with
  | nil => exact Nat.le_refl _
  | cons r records ih =>
    obtain ⟨hr, hrs⟩ := List.forall_mem_cons.mp h
    have hpos := (minimal_numberBytes hr.1).1.length_pos
    have hrest := ih hrs
    rw [List.flatMap_cons, List.length_append, List.length_cons, pairBytes, List.length_append]
    omega

theorem length_le_indexOf (codecs : Codecs) {records : List (UInt64 × UInt64)}
    (h : ∀ r ∈ records, r.1.toNat < 2 ^ 63 ∧ r.2.toNat < 2 ^ 63) :
    records.length ≤ (indexOf codecs records).length := by
  have hflat := length_le_flatMap h
  rw [indexOf_length, paddedFields, List.length_append, recordFields, List.length_cons,
    List.length_append]
  omega

theorem tailOf_le (codecs : Codecs) (records : List (UInt64 × UInt64)) (flags : Bytes)
    {k k' : Nat} (h : k ≤ k') : tailOf codecs records flags k' =
      tailOf codecs records flags k ++ List.replicate (4 * (k' - k)) 0 := by
  rw [tailOf, tailOf, List.append_assoc, List.append_assoc, ← List.replicate_add,
    show 4 * k + 4 * (k' - k) = 4 * k' by omega]

/-- **One tail per list of blocks.** For records in range whose index the footer can give the
length of, the tail is accepted exactly when it is their index, its footer and zeros in fours. What
is left of an accepted tail after any change but adding or removing such zeros is refused. -/
theorem checkIndexAndFooter_iff (codecs : Codecs) {tail flags : Bytes}
    (hw : tail.length ≤ isizeMax) (hzero : tail[0]? = some 0) (hflags : flags.length = 2)
    {records : List (UInt64 × UInt64)}
    (hsmall : ∀ r ∈ records, r.1.toNat < 2 ^ 63 ∧ r.2.toNat < 2 ^ 63)
    (hindex : (indexOf codecs records).length ≤ 2 ^ 34) :
    (checkIndexAndFooter codecs tail records flags = .ok () ↔
      ∃ k, tail = tailOf codecs records flags k) ∧
    ∀ tail' : Bytes, tail'.length ≤ isizeMax → tail'[0]? = some 0 →
      checkIndexAndFooter codecs tail records flags = .ok () →
      (∀ k, tail' ≠ tail ++ List.replicate (4 * k) 0) →
      (∀ k, tail ≠ tail' ++ List.replicate (4 * k) 0) →
        ∃ e, checkIndexAndFooter codecs tail' records flags = fails e := by
  obtain ⟨hfour, hmod⟩ := indexOf_mod codecs records
  have hcount := length_le_indexOf codecs hsmall
  have hiff : ∀ {t : Bytes}, t.length ≤ isizeMax → t[0]? = some 0 →
      (checkIndexAndFooter codecs t records flags = .ok () ↔
        ∃ k, t = tailOf codecs records flags k) := by
    intro t ht h0
    rw [checkIndexAndFooter_eq_ok_records ht h0 hflags (by omega)]
    constructor
    · rintro ⟨-, backward, k, hback, htail⟩
      have hbackward : UInt32.ofNat ((indexOf codecs records).length / 4 - 1) = backward := by
        rw [← hback, Nat.mul_div_cancel _ (by decide), Nat.add_sub_cancel, UInt32.ofNat_toNat]
      exact ⟨k, by rw [tailOf, hbackward, htail]⟩
    · rintro ⟨k, htail⟩
      refine ⟨hsmall, _, k, ?_, htail⟩
      rw [UInt32.toNat_ofNat_of_lt' (by unfold UInt32.size; omega)]
      omega
  refine ⟨hiff hw hzero, fun tail' hw' hzero' haccepted hmore hless => ?_⟩
  rcases (@returns_checkIndexAndFooter codecs tail' records flags hw').cases with ⟨⟨⟩, hok⟩ | herr
  · obtain ⟨k, hk⟩ := (hiff hw hzero).mp haccepted
    obtain ⟨k', hk'⟩ := (hiff hw' hzero').mp hok
    rcases Nat.le_total k k' with hle | hle
    · exact absurd (by rw [hk, hk', tailOf_le codecs records flags hle]) (hmore (k' - k))
    · exact absurd (by rw [hk, hk', tailOf_le codecs records flags hle]) (hless (k - k'))
  · exact herr

/-- The records of two blocks, the second's contents of a length that takes two bytes. -/
def twoRecords : List (UInt64 × UInt64) := [(21, 1), (17, 300)]

/-- Their tail with four zero bytes after it is accepted, and refused with a record changed. -/
theorem checkIndexAndFooter_iff_sample :
    checkIndexAndFooter rawCodecs (tailOf rawCodecs twoRecords [0, 4] 1) twoRecords [0, 4] =
      .ok () ∧
    ∃ e, checkIndexAndFooter rawCodecs ((tailOf rawCodecs twoRecords [0, 4] 1).set 3 2) twoRecords
      [0, 4] = fails e := by
  have hlen : (tailOf rawCodecs twoRecords [0, 4] 1).length ≤ isizeMax := by decide +kernel
  have hsmall : ∀ r ∈ twoRecords, r.1.toNat < 2 ^ 63 ∧ r.2.toNat < 2 ^ 63 :=
    List.forall_mem_cons.mpr ⟨⟨by decide, by decide⟩,
      List.forall_mem_singleton.mpr ⟨by decide, by decide⟩⟩
  obtain ⟨haccept, hrefuse⟩ :=
    @checkIndexAndFooter_iff rawCodecs (tailOf rawCodecs twoRecords [0, 4] 1) [0, 4] hlen
      (by decide +kernel) rfl twoRecords hsmall (by decide +kernel)
  have hne : (tailOf rawCodecs twoRecords [0, 4] 1).set 3 2 ≠
      tailOf rawCodecs twoRecords [0, 4] 1 := by decide +kernel
  have hlen' : ((tailOf rawCodecs twoRecords [0, 4] 1).set 3 2).length ≤ isizeMax := by
    rwa [List.length_set]
  have hok := haccept.mpr ⟨1, rfl⟩
  refine ⟨hok, hrefuse _ hlen' (by decide +kernel) hok (fun k h => ?_) fun k h => ?_⟩
  · have hk : k = 0 := by
      have := congrArg List.length h
      rw [List.length_append, List.length_set, List.length_replicate] at this
      omega
    subst hk
    exact hne (h.trans (List.append_nil _))
  · have hk : k = 0 := by
      have := congrArg List.length h
      rw [List.length_append, List.length_set, List.length_replicate] at this
      omega
    subst hk
    exact hne (h.trans (List.append_nil _)).symm

end Squashfs.Xz
