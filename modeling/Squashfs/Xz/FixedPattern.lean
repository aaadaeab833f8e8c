import Squashfs.Xz.Ia64
import Squashfs.Xz.X86

/-!
# The fixed-pattern converters

About `powerpc`, `ia64`, `arm`, `armthumb` and `sparc` (`src/xz.rs:452-559`) as maps of a buffer
(`Bcj.convert`): unit by unit, or, for ARM-Thumb, pair by pair with steps of two or four bytes
(`pairScan`). The converters are these maps, subtracting (`decode_eq_convert`).

**`fixed_pattern_lossless`**: they are bijections on the buffers of a length, and at an aligned
start the map that adds is the inverse; they change only address bits of branches, and what makes a
branch one stays, but for the sign bits of SPARC, which change together
(`fixed_pattern_lossless_sparc_sign`).
-/

namespace Squashfs.Xz

open Foundation
open Foundation.BranchCode

/-- The ARM-Thumb scan: a pair is converted and passed, any other halfword is passed. -/
def pairScan (f : UInt32 → UInt32 → UInt32) (start : UInt32) : (pos : Nat) → Bytes → Bytes
  | pos, b0 :: b1 :: b2 :: b3 :: rest =>
    if armthumbSplit.code.isBranch (leNat [b0, b1, b2, b3]) then
      Bcj.armThumb.convertUnit f start pos [b0, b1, b2, b3] ++ pairScan f start (pos + 4) rest
    else b0 :: b1 :: pairScan f start (pos + 2) (b2 :: b3 :: rest)
  | _, rest => rest

/-- The converter's scan with `f` in the place of the subtraction of the position. -/
def Bcj.convert (kind : Bcj) (f : UInt32 → UInt32 → UInt32) (start : UInt32) (buf : Bytes) : Bytes :=
  match kind with
  | .x86 => x86Scan f start .empty buf
  | .armThumb => pairScan f start 0 buf
  | kind => mapUnits kind.unit (kind.convertUnit f start) (buf.length / kind.unit) 0 buf

theorem Bcj.alignment_eq (kind : Bcj) : kind.alignment = 2 ^ kind.scale := by cases kind <;> rfl

/-! ## The converters are the scans -/

theorem stepBy_units {len k : Nat} (hk : 0 < k) :
    stepBy (len - len % k) k = (List.range (len / k)).map (· * k) := by
  have hdm := Nat.div_add_mod len k
  have hsize : len - len % k = k * (len / k) := by omega
  have hup : (k * (len / k) + k - 1) / k = len / k := by
    rw [Nat.add_sub_assoc hk, Nat.mul_add_div hk, Nat.div_eq_of_lt (Nat.sub_lt hk Nat.one_pos),
      Nat.add_zero]
  rw [stepBy, hsize, hup]

/-- **The rule for a stepped scan** whose step maps the unit it is at. -/
theorem stepBy_eq {step : Bytes → Nat → Res Bytes} {f : Nat → Bytes → Bytes} {k : Nat} (hk : 0 < k)
    {buf : Bytes} (hf : ∀ pos u, u.length = k → (f pos u).length = k)
    (hstep : ∀ done u rest, u.length = k → (done ++ (u ++ rest)).length = buf.length →
      step (done ++ (u ++ rest)) done.length = .ok (done ++ (f done.length u ++ rest))) :
    (stepBy (buf.length - buf.length % k) k).foldlM step buf =
      .ok (mapUnits k f (buf.length / k) 0 buf) := by
  have hrun : ∀ n q (done l : Bytes), done.length = q * k → n * k ≤ l.length →
      done.length + l.length = buf.length →
      ((List.range' q n).map (· * k)).foldlM step (done ++ l) =
        .ok (done ++ mapUnits k f n (q * k) l) := by
    intro n
    induction n with
    | zero => exact fun q done l _ _ _ => rfl
    | succ n ih =>
      intro q done l hdone hn hlen
      rw [Nat.succ_mul] at hn
      have hunit : (l.take k).length = k := List.length_take_of_le (by omega)
      have hkept := hf done.length _ hunit
      have hfirst := hstep done (l.take k) (l.drop k) hunit
        (by rw [List.take_append_drop, List.length_append, hlen])
      rw [List.take_append_drop] at hfirst
      have hrest := ih (q + 1) (done ++ f done.length (l.take k)) (l.drop k)
        (by rw [List.length_append, hkept, hdone, Nat.succ_mul])
        (by rw [List.length_drop]; omega)
        (by rw [List.length_append, List.length_drop, hkept]; omega)
      rw [List.append_assoc, List.append_assoc, hdone, Nat.succ_mul] at hrest
      rw [List.range'_succ, List.map_cons, List.foldlM_cons, ← hdone, hfirst, ok_bind, hdone,
        hrest, mapUnits]
  have hall := hrun (buf.length / k) 0 [] buf (by rw [Nat.zero_mul]; rfl)
    (Nat.div_mul_le_self _ _) (Nat.zero_add _)
  rw [List.nil_append, List.nil_append, Nat.zero_mul] at hall
  rw [stepBy_units hk, List.range_eq_range', hall]

section PairScan

variable {f : UInt32 → UInt32 → UInt32} {start : UInt32} {pos : Nat} {rest : Bytes}
  {b0 b1 b2 b3 : UInt8}

theorem pairScan_branch (h : armthumbSplit.code.isBranch (leNat [b0, b1, b2, b3]) = true) :
    pairScan f start pos (b0 :: b1 :: b2 :: b3 :: rest) =
      Bcj.armThumb.convertUnit f start pos [b0, b1, b2, b3] ++ pairScan f start (pos + 4) rest := by
  rw [pairScan, if_pos h]

theorem pairScan_skip (h : ¬ armthumbSplit.code.isBranch (leNat [b0, b1, b2, b3]) = true) :
    pairScan f start pos (b0 :: b1 :: b2 :: b3 :: rest) =
      b0 :: b1 :: pairScan f start (pos + 2) (b2 :: b3 :: rest) := by
  rw [pairScan, if_neg h]

theorem pairScan_short {l : Bytes} (h : l.length < 4) : pairScan f start pos l = l := by
  match l, h with
  | [], _ => rfl
  | [_], _ => rfl
  | [_, _], _ => rfl
  | [_, _, _], _ => rfl

/-- What is left of a scan is too short, or begins with a pair. -/
theorem four_or_short (l : Bytes) :
    l.length < 4 ∨ ∃ b0 b1 b2 b3 rest, l = b0 :: b1 :: b2 :: b3 :: rest :=
  match l with
  | [] | [_] | [_, _] | [_, _, _] => Or.inl (by simp)
  | b0 :: b1 :: b2 :: b3 :: rest => Or.inr ⟨b0, b1, b2, b3, rest, rfl⟩

end PairScan

theorem armthumbLoop_eq {start : UInt32} {size turns : Nat} {done l : Bytes}
    (hsize : size + 4 = done.length + l.length) (hw : done.length + l.length < wordSize)
    (hturns : size + 1 ≤ turns + done.length) :
    armthumbLoop start size turns (done ++ l) done.length =
      .ok (done ++ pairScan (· - ·) start done.length l) := by
  induction turns generalizing done l with
  | zero => rw [armthumbLoop, if_neg (by omega), pairScan_short (by omega)]
  | succ turns ih =>
    rcases four_or_short l with hshort | ⟨b0, b1, b2, b3, rest, rfl⟩
    · rw [armthumbLoop, if_neg (by omega), pairScan_short hshort]
    · simp only [List.length_cons] at hsize hw
      have hlen : (done ++ ([b0, b1, b2, b3] ++ rest)).length < wordSize := by
        simp only [List.length_append, List.length_cons, List.length_nil]
        omega
      rw [armthumbLoop, if_pos (by omega)]
      by_cases h : armthumbSplit.code.isBranch (leNat [b0, b1, b2, b3]) = true
      · have hstep := @armthumbStep_eq start done rest [b0, b1, b2, b3] rfl hlen h
        have hunit : (Bcj.armThumb.convertUnit (· - ·) start done.length
            [b0, b1, b2, b3]).length = 4 := Bcj.convertUnit_length
        have hpos : (done ++ Bcj.armThumb.convertUnit (· - ·) start done.length
            [b0, b1, b2, b3]).length = done.length + 4 := by rw [List.length_append, hunit]
        have hnext := @ih (done ++ Bcj.armThumb.convertUnit (· - ·) start done.length
          [b0, b1, b2, b3]) rest (by omega) (by omega) (by omega)
        rw [hpos, List.append_assoc, List.append_assoc] at hnext
        rw [pairScan_branch h, ← hnext]
        exact congrArg (· >>= fun r => armthumbLoop start size turns r.1 r.2) hstep
      · have hstep := @armthumbStep_skip start done rest [b0, b1, b2, b3] rfl hlen h
        have hpos : (done ++ [b0, b1]).length = done.length + 2 := by rw [List.length_append]; rfl
        have hnext := @ih (done ++ [b0, b1]) (b2 :: b3 :: rest)
          (by simp only [List.length_cons]; omega) (by simp only [List.length_cons]; omega)
          (by omega)
        rw [hpos, List.append_assoc, List.append_assoc] at hnext
        rw [pairScan_skip h]
        refine Eq.trans ?_ hnext
        exact congrArg (· >>= fun r => armthumbLoop start size turns r.1 r.2) hstep

/-- **The converter is the scan that subtracts.** -/
theorem decode_eq_convert {kind : Bcj} (hkind : kind ≠ .x86) (start : UInt32) {buf : Bytes}
    (hw : buf.length < wordSize) :
    decode kind start buf = .ok (kind.convert (· - ·) start buf) := by
  have hlength : ∀ {kind : Bcj} {k : Nat}, kind.unit = k → ∀ pos (u : Bytes), u.length = k →
      (kind.convertUnit (· - ·) start pos u).length = k :=
    fun hk pos u _ => hk ▸ Bcj.convertUnit_length
  cases kind with
  | x86 => exact absurd rfl hkind
  | powerPc =>
    refine stepBy_eq (by decide) (hlength rfl) fun done u rest hu hlen => ?_
    exact powerpcStep_eq hu (by omega)
  | ia64 =>
    refine stepBy_eq (by decide) (hlength rfl) fun done u rest hu hlen => ?_
    exact ia64Step_eq hu (by omega)
  | arm =>
    refine stepBy_eq (by decide) (hlength rfl) fun done u rest hu hlen => ?_
    exact armStep_eq hu (by omega)
  | armThumb =>
    show armthumb start buf = .ok (pairScan (· - ·) start 0 buf)
    unfold armthumb
    by_cases hshort : buf.length < 4
    · rw [if_pos hshort, pairScan_short hshort]
      rfl
    · rw [if_neg hshort, sub64_ok (by omega), ok_bind]
      have hempty : ([] : Bytes).length = 0 := rfl
      exact @armthumbLoop_eq start _ _ [] buf (by omega) (by omega) (by omega)
  | sparc =>
    refine stepBy_eq (by decide) (hlength rfl) fun done u rest hu hlen => ?_
    exact sparcStep_eq hu (by omega)

/-! ## The scans are undone -/

section Undo

variable {f g : UInt32 → UInt32 → UInt32} {start : UInt32}

theorem pairScan_length (pos : Nat) (l : Bytes) : (pairScan f start pos l).length = l.length := by
  fun_induction pairScan f start pos l with
  | case1 pos b0 b1 b2 b3 rest h ih =>
    rw [List.length_append, Bcj.convertUnit_length, ih]
    simp only [Bcj.unit, List.length_cons]
    omega
  | case2 pos b0 b1 b2 b3 rest h ih => rw [List.length_cons, List.length_cons, ih]; rfl
  | case3 => rfl

/-- A converted pair is a pair. -/
theorem pair_converted {pos : Nat} {u : Bytes} (hu : u.length = 4)
    (h : armthumbSplit.code.isBranch (leNat u) = true) :
    ∃ c0 c1 c2 c3, Bcj.armThumb.convertUnit f start pos u = [c0, c1, c2, c3] ∧
      armthumbSplit.code.isBranch (leNat [c0, c1, c2, c3]) = true := by
  obtain ⟨c0, c1, c2, c3, hc⟩ := four_bytes
    (Bcj.convertUnit_length : (Bcj.armThumb.convertUnit f start pos u).length = 4)
  refine ⟨c0, c1, c2, c3, hc, ?_⟩
  rw [← hc]
  have hmem : armthumbSplit.code ∈ Bcj.armThumb.codes := List.mem_singleton.mpr rfl
  exact (Bcj.isBranch_convertUnit hu hmem).trans h

/-- The prefix in a scan's second byte stays. -/
theorem pairScan_head (pos : Nat) (b0 b1 : UInt8) (rest : Bytes) :
    ∃ c0 c1 rest', pairScan f start pos (b0 :: b1 :: rest) = c0 :: c1 :: rest' ∧
      c1 &&& 0xF8 = b1 &&& 0xF8 := by
  match rest with
  | [] => exact ⟨b0, b1, [], rfl, rfl⟩
  | [b2] => exact ⟨b0, b1, [b2], rfl, rfl⟩
  | b2 :: b3 :: rest =>
    by_cases h : armthumbSplit.code.isBranch (leNat [b0, b1, b2, b3]) = true
    · obtain ⟨c0, c1, c2, c3, hc, hpair⟩ := @pair_converted f start pos _ rfl h
      refine ⟨c0, c1, c2 :: c3 :: pairScan f start (pos + 4) rest, ?_, ?_⟩
      · rw [pairScan_branch h, hc]
        rfl
      · rw [((armthumb_isBranch c0 c1 c2 c3).mp hpair).1, ((armthumb_isBranch b0 b1 b2 b3).mp h).1]
    · exact ⟨b0, b1, _, pairScan_skip h, rfl⟩

theorem pairScan_undo
    (hundo : ∀ pos, pos % 2 = 0 → ∀ u : Bytes, u.length = 4 →
      Bcj.armThumb.convertUnit g start pos (Bcj.armThumb.convertUnit f start pos u) = u)
    {pos : Nat} (hpos : pos % 2 = 0) (l : Bytes) :
    pairScan g start pos (pairScan f start pos l) = l := by
  fun_induction pairScan f start pos l with
  | case1 pos b0 b1 b2 b3 rest h ih =>
    obtain ⟨c0, c1, c2, c3, hc, hpair⟩ := @pair_converted f start pos _ rfl h
    have hback := hundo pos hpos [b0, b1, b2, b3] rfl
    rw [hc] at hback ⊢
    show pairScan g start pos (c0 :: c1 :: c2 :: c3 :: pairScan f start (pos + 4) rest) = _
    rw [pairScan_branch hpair, hback, ih (by omega)]
    rfl
  | case2 pos b0 b1 b2 b3 rest h ih =>
    have hback := ih (by omega)
    obtain ⟨c2, c3, rest', hhead, hpre⟩ :=
      @pairScan_head f start (pos + 2) b2 b3 rest
    have hskip : ¬ armthumbSplit.code.isBranch (leNat [b0, b1, c2, c3]) = true := by
      rw [armthumb_isBranch, hpre, ← armthumb_isBranch b0 b1 b2 b3]
      exact h
    rw [hhead] at hback ⊢
    rw [pairScan_skip hskip, hback]
  | case3 pos l h =>
    rcases four_or_short l with hshort | ⟨b0, b1, b2, b3, rest, rfl⟩
    · rw [pairScan_short hshort]
    · exact absurd rfl (h b0 b1 b2 b3 rest)

theorem pairScan_congr {start' : UInt32}
    (hunit : ∀ pos, pos % 2 = 0 → ∀ u : Bytes,
      Bcj.armThumb.convertUnit f start pos u = Bcj.armThumb.convertUnit f start' pos u)
    {pos : Nat} (hpos : pos % 2 = 0) (l : Bytes) :
    pairScan f start pos l = pairScan f start' pos l := by
  fun_induction pairScan f start pos l with
  | case1 pos b0 b1 b2 b3 rest h ih =>
    rw [pairScan_branch h, hunit pos hpos, ih (by omega)]
  | case2 pos b0 b1 b2 b3 rest h ih => rw [pairScan_skip h, ih (by omega)]
  | case3 pos l h =>
    rcases four_or_short l with hshort | ⟨b0, b1, b2, b3, rest, rfl⟩
    · rw [pairScan_short hshort]
    · exact absurd rfl (h b0 b1 b2 b3 rest)

variable {kind : Bcj}

theorem Bcj.convert_units (hx86 : kind ≠ .x86) (hthumb : kind ≠ .armThumb) (buf : Bytes) :
    kind.convert f start buf =
      mapUnits kind.unit (kind.convertUnit f start) (buf.length / kind.unit) 0 buf := by
  cases kind
  case x86 => exact absurd rfl hx86
  case armThumb => exact absurd rfl hthumb
  all_goals rfl

theorem Bcj.convertUnit_keeps (pos : Nat) (u : Bytes) (_ : u.length = kind.unit) :
    (kind.convertUnit f start pos u).length = kind.unit := Bcj.convertUnit_length

theorem Bcj.convert_length (hx86 : kind ≠ .x86) (buf : Bytes) :
    (kind.convert f start buf).length = buf.length := by
  by_cases hthumb : kind = .armThumb
  · rw [hthumb]
    exact pairScan_length 0 buf
  · rw [Bcj.convert_units hx86 hthumb,
      mapUnits_length Bcj.convertUnit_keeps (Nat.div_mul_le_self _ _)]

/-- A unit of the result. -/
theorem Bcj.convert_unit (hx86 : kind ≠ .x86) (hthumb : kind ≠ .armThumb) {buf : Bytes} {q : Nat}
    (hq : q < buf.length / kind.unit) :
    ((kind.convert f start buf).drop (q * kind.unit)).take kind.unit =
      kind.convertUnit f start (q * kind.unit) ((buf.drop (q * kind.unit)).take kind.unit) := by
  rw [Bcj.convert_units hx86 hthumb,
    mapUnits_unit Bcj.convertUnit_keeps hq (Nat.div_mul_le_self _ _), Nat.zero_add]

/-- What lies behind the units stays. -/
theorem Bcj.convert_tail (hx86 : kind ≠ .x86) (hthumb : kind ≠ .armThumb) (buf : Bytes) :
    (kind.convert f start buf).drop (buf.length / kind.unit * kind.unit) =
      buf.drop (buf.length / kind.unit * kind.unit) := by
  rw [Bcj.convert_units hx86 hthumb,
    mapUnits_tail Bcj.convertUnit_keeps (Nat.div_mul_le_self _ _)]

/-- Every unit of a scan that began aligned is aligned. -/
theorem Bcj.pos_aligned (hx86 : kind ≠ .x86) (hstart : start.toNat % 2 ^ kind.scale = 0) {pos : Nat}
    (hpos : pos % 2 ^ kind.scale = 0) :
    (start + UInt32.ofNat pos + kind.ahead).toNat % 2 ^ kind.scale = 0 := by
  have hahead : kind.ahead.toNat % 2 ^ kind.scale = 0 := by cases kind <;> rfl
  have hs := start.toNat_lt
  have ha := kind.ahead.toNat_lt
  rw [UInt32.toNat_add, UInt32.toNat_add, UInt32.toNat_ofNat']
  rcases Bcj.scale_cases hx86 with h | h | h
  all_goals
    rw [h] at hstart hpos hahead ⊢
    omega

theorem Bcj.unit_aligned (hx86 : kind ≠ .x86) (hthumb : kind ≠ .armThumb) (q : Nat) :
    (q * kind.unit) % 2 ^ kind.scale = 0 := by
  have hunit : kind.unit = 2 ^ kind.scale := by
    cases kind
    case x86 => exact absurd rfl hx86
    case armThumb => exact absurd rfl hthumb
    all_goals rfl
  rw [hunit, Nat.mul_mod_left]

/-- **A scan is undone** by one that undoes its relocations at aligned positions. -/
theorem Bcj.convert_undo (hx86 : kind ≠ .x86) (hstart : start.toNat % 2 ^ kind.scale = 0)
    (hundo : ∀ pos : UInt32, pos.toNat % 2 ^ kind.scale = 0 → ∀ a < 2 ^ kind.width,
      relocated g kind.scale kind.width pos (relocated f kind.scale kind.width pos a) = a)
    (buf : Bytes) : kind.convert g start (kind.convert f start buf) = buf := by
  have hunit : ∀ pos, pos % 2 ^ kind.scale = 0 → ∀ u : Bytes, u.length = kind.unit →
      kind.convertUnit g start pos (kind.convertUnit f start pos u) = u :=
    fun pos hpos u hu => Bcj.convertUnit_undo hu (hundo _ (Bcj.pos_aligned hx86 hstart hpos))
  by_cases hthumb : kind = .armThumb
  · subst hthumb
    exact pairScan_undo hunit rfl buf
  · have hlen := @Bcj.convert_length f start kind hx86 buf
    rw [Bcj.convert_units hx86 hthumb (kind.convert f start buf), hlen,
      Bcj.convert_units hx86 hthumb buf]
    refine mapUnits_mapUnits Bcj.convertUnit_keeps (fun q u _ hu => ?_) (Nat.div_mul_le_self _ _)
    rw [Nat.zero_add]
    exact hunit _ (Bcj.unit_aligned hx86 hthumb q) u hu

/-- A scan from between two aligned positions relocates as one from the second. -/
theorem Bcj.convert_roundUp (hx86 : kind ≠ .x86) (buf : Bytes) :
    kind.convert (· - ·) start buf = kind.convert (· - ·) (roundUp kind.scale start) buf := by
  have hunit : ∀ pos, pos % 2 ^ kind.scale = 0 → ∀ u : Bytes,
      kind.convertUnit (· - ·) start pos u =
        kind.convertUnit (· - ·) (roundUp kind.scale start) pos u := by
    intro pos hpos u
    have hn : (UInt32.ofNat pos + kind.ahead).toNat % 2 ^ kind.scale = 0 := by
      have haligned := @Bcj.pos_aligned 0 kind hx86 (Nat.zero_mod _) _ hpos
      rwa [UInt32.zero_add] at haligned
    have hround := roundUp_add (Bcj.scale_cases hx86) start (UInt32.ofNat pos + kind.ahead) hn
    have hmap : relocated (· - ·) kind.scale kind.width (start + UInt32.ofNat pos + kind.ahead) =
        relocated (· - ·) kind.scale kind.width
          (roundUp kind.scale start + UInt32.ofNat pos + kind.ahead) := by
      funext a
      rw [relocated_roundUp (Bcj.scaled hx86), UInt32.add_assoc, hround, UInt32.add_assoc]
    rw [Bcj.convertUnit, Bcj.convertUnit, hmap]
  by_cases hthumb : kind = .armThumb
  · subst hthumb
    exact pairScan_congr hunit rfl buf
  · rw [Bcj.convert_units hx86 hthumb, Bcj.convert_units hx86 hthumb]
    refine mapUnits_congr (fun q u _ _ => ?_) (Nat.div_mul_le_self _ _)
    rw [Nat.zero_add]
    exact hunit _ (Bcj.unit_aligned hx86 hthumb q) u

end Undo

/-! ## What a scan changes -/

/-- Bit `j` of byte `p`. -/
def bitOf (buf : Bytes) (p j : Nat) : Bool := (buf.getD p 0).toNat.testBit j

/-- Where an instruction can stand in a buffer of `n` bytes. -/
def Bcj.Site (kind : Bcj) (n i : Nat) : Prop := i % kind.alignment = 0 ∧ i + kind.unit ≤ n

/-- The word of the unit at `i`. -/
def Bcj.wordAt (kind : Bcj) (buf : Bytes) (i : Nat) : Nat :=
  kind.word ((buf.drop i).take kind.unit)

/-- An instruction that covers byte `p` and matches the converter's pattern. -/
def Bcj.MatchOver (kind : Bcj) (buf : Bytes) (p i : Nat) (c : BranchCode) : Prop :=
  kind.Site buf.length i ∧ i ≤ p ∧ p < i + kind.unit ∧ c ∈ kind.codes ∧
    c.isBranch (kind.wordAt buf i) = true

/-- A bit of the address of an instruction that matches. -/
def Bcj.AddressBit (kind : Bcj) (buf : Bytes) (p j : Nat) : Prop :=
  ∃ i c, kind.MatchOver buf p i c ∧ c.addressBit (kind.bitAt (p - i) j) = true

/-- A bit that decides whether some instruction matches. -/
def Bcj.PatternBit (kind : Bcj) (n p j : Nat) : Prop :=
  ∃ i c, kind.Site n i ∧ i ≤ p ∧ p < i + kind.unit ∧ c ∈ kind.codes ∧
    c.patternBit (kind.bitAt (p - i) j) = true

theorem bitOf_eq {buf : Bytes} {p j : Nat} {b : UInt8} (h : buf[p]? = some b) :
    bitOf buf p j = b.toNat.testBit j := by
  rw [bitOf, List.getD_eq_getElem?_getD, h]
  rfl

theorem bitOf_congr {buf out : Bytes} {p : Nat} (j : Nat) (h : out[p]? = buf[p]?) :
    bitOf out p j = bitOf buf p j := by
  rw [bitOf, bitOf, List.getD_eq_getElem?_getD, h, List.getD_eq_getElem?_getD]

theorem bitOf_window {l : Bytes} {i k p : Nat} (j : Nat) (hi : i ≤ p) (hp : p < i + k) :
    bitOf ((l.drop i).take k) (p - i) j = bitOf l p j := by
  rw [bitOf, bitOf, List.getD_eq_getElem?_getD, List.getElem?_take_of_lt (by omega),
    List.getElem?_drop, Nat.add_sub_cancel' hi, List.getD_eq_getElem?_getD]

theorem bitOf_left {a l : Bytes} {p : Nat} (j : Nat) (hp : p < a.length) :
    bitOf (a ++ l) p j = bitOf a p j := by
  rw [bitOf, bitOf, List.getD_eq_getElem?_getD, List.getElem?_append_left hp,
    List.getD_eq_getElem?_getD]

theorem bitOf_right (a l : Bytes) (p j : Nat) : bitOf (a ++ l) (a.length + p) j = bitOf l p j := by
  rw [bitOf, bitOf, List.getD_eq_getElem?_getD, List.getElem?_append_right (Nat.le_add_right _ _),
    Nat.add_sub_cancel_left, List.getD_eq_getElem?_getD]

theorem bitOf_drop {l : Bytes} {i p : Nat} (j : Nat) (hi : i ≤ p) :
    bitOf (l.drop i) (p - i) j = bitOf l p j := by
  rw [bitOf, bitOf, List.getD_eq_getElem?_getD, List.getElem?_drop, Nat.add_sub_cancel' hi,
    List.getD_eq_getElem?_getD]

theorem bitOf_high (buf : Bytes) (p : Nat) {j : Nat} (hj : 8 ≤ j) : bitOf buf p j = false :=
  Nat.testBit_lt_two_pow (Nat.lt_of_lt_of_le (UInt8.toNat_lt _)
    (Nat.pow_le_pow_right (by decide) hj))

/-- Bytes with the same bits are the same. -/
theorem byte_of_bits {a b : UInt8} (h : ∀ j < 8, a.toNat.testBit j = b.toNat.testBit j) : a = b := by
  apply UInt8.toNat_inj.mp
  refine Nat.eq_of_testBit_eq fun j => ?_
  rcases Nat.lt_or_ge j 8 with hj | hj
  · exact h j hj
  · have hpow : 2 ^ 8 ≤ 2 ^ j := Nat.pow_le_pow_right (by decide) hj
    rw [Nat.testBit_lt_two_pow (Nat.lt_of_lt_of_le a.toNat_lt hpow),
      Nat.testBit_lt_two_pow (Nat.lt_of_lt_of_le b.toNat_lt hpow)]

section Frame

variable {f : UInt32 → UInt32 → UInt32} {start : UInt32} {kind : Bcj}

/-- A bit of a unit that changes is an address bit. -/
theorem Bcj.bitOf_convertUnit {pos k j : Nat} (hj : j < 8) {u : Bytes} (hu : u.length = kind.unit)
    (hne : bitOf (kind.convertUnit f start pos u) k j ≠ bitOf u k j) :
    k < kind.unit ∧
      ∃ c ∈ kind.codes, c.isBranch (kind.word u) = true ∧ c.addressBit (kind.bitAt k j) = true := by
  have hlen : (kind.convertUnit f start pos u).length = kind.unit := Bcj.convertUnit_length
  by_cases hk : k < kind.unit
  · have hb := List.getElem?_eq_getElem (l := u) (i := k) (by omega)
    have hb' := List.getElem?_eq_getElem (l := kind.convertUnit f start pos u) (i := k) (by omega)
    rw [bitOf_eq hb, bitOf_eq hb'] at hne
    exact ⟨hk, Bcj.testBit_convertUnit hu hj hb hb' hne⟩
  · refine absurd (bitOf_congr j ?_) hne
    rw [List.getElem?_eq_none (by omega), List.getElem?_eq_none (by omega)]

theorem mapUnits_frame (hx86 : kind ≠ .x86) (hthumb : kind ≠ .armThumb) {buf : Bytes} {p j : Nat}
    (hj : j < 8) (hne : bitOf (kind.convert f start buf) p j ≠ bitOf buf p j) :
    kind.AddressBit buf p j := by
  have hfit := Nat.div_mul_le_self buf.length kind.unit
  have hpos : 0 < kind.unit := by cases kind <;> decide
  have hcut := Nat.div_add_mod p kind.unit
  have hmod := Nat.mod_lt p hpos
  rw [Nat.mul_comm] at hcut
  have hle : p / kind.unit * kind.unit ≤ p := by omega
  by_cases hq : p / kind.unit < buf.length / kind.unit
  · have hroom : p / kind.unit * kind.unit + kind.unit ≤ buf.length := by
      have hmul := Nat.mul_le_mul_right kind.unit hq
      rw [Nat.succ_mul] at hmul
      omega
    have hlt : p < p / kind.unit * kind.unit + kind.unit := by omega
    rw [← bitOf_window j hle hlt, Bcj.convert_unit hx86 hthumb hq,
      ← bitOf_window (l := buf) j hle hlt] at hne
    obtain ⟨-, c, hc, hbranch, hbit⟩ := Bcj.bitOf_convertUnit hj (window_length hroom) hne
    refine ⟨p / kind.unit * kind.unit, c, ⟨⟨?_, hroom⟩, hle, hlt, hc, hbranch⟩, hbit⟩
    rw [Bcj.alignment_eq, Bcj.unit_aligned hx86 hthumb]
  · have hend : buf.length / kind.unit * kind.unit ≤ p := by
      have hmul := Nat.mul_le_mul_right kind.unit (Nat.not_lt.mp hq)
      omega
    rw [← bitOf_drop j hend, Bcj.convert_tail hx86 hthumb, bitOf_drop j hend] at hne
    exact absurd rfl hne

/-- A pair further on in a buffer. -/
theorem Bcj.AddressBit.shift {done rest : Bytes} {p j : Nat} (hdone : done.length % 2 = 0)
    (h : Bcj.armThumb.AddressBit rest p j) :
    Bcj.armThumb.AddressBit (done ++ rest) (done.length + p) j := by
  obtain ⟨i, c, ⟨⟨heven, hroom⟩, hle, hlt, hc, hbranch⟩, hbit⟩ := h
  have heven : i % 2 = 0 := heven
  refine ⟨done.length + i, c, ⟨⟨?_, ?_⟩, ?_, ?_, hc, ?_⟩, ?_⟩
  · show (done.length + i) % 2 = 0
    omega
  · rw [List.length_append]
    omega
  · omega
  · omega
  · rwa [Bcj.wordAt, List.drop_length_add_append]
  · rwa [Nat.add_sub_add_left]

theorem pairScan_frame (pos : Nat) {l : Bytes} {p j : Nat} (hj : j < 8)
    (hne : bitOf (pairScan f start pos l) p j ≠ bitOf l p j) : Bcj.armThumb.AddressBit l p j := by
  fun_induction pairScan f start pos l generalizing p with
  | case1 pos b0 b1 b2 b3 rest h ih =>
    have hlen : (Bcj.armThumb.convertUnit f start pos [b0, b1, b2, b3]).length = 4 :=
      Bcj.convertUnit_length
    rcases Nat.lt_or_ge p 4 with hp | hp
    · have hin : bitOf ([b0, b1, b2, b3] ++ rest) p j = bitOf [b0, b1, b2, b3] p j :=
        bitOf_left j hp
      rw [bitOf_left j (by omega)] at hne
      obtain ⟨-, c, hc, hbranch, hbit⟩ :=
        @Bcj.bitOf_convertUnit f start .armThumb _ _ _ hj _ rfl
          (fun heq => hne (heq.trans hin.symm))
      exact ⟨0, c, ⟨⟨rfl, by simp [Bcj.unit]⟩, Nat.zero_le p, by simpa [Bcj.unit] using hp, hc,
        hbranch⟩, hbit⟩
    · obtain ⟨p, rfl⟩ := Nat.exists_eq_add_of_le hp
      have hright : bitOf ([b0, b1, b2, b3] ++ rest) (4 + p) j = bitOf rest p j :=
        bitOf_right [b0, b1, b2, b3] rest p j
      have hright' := bitOf_right (Bcj.armThumb.convertUnit f start pos [b0, b1, b2, b3])
        (pairScan f start (pos + 4) rest) p j
      rw [hlen] at hright'
      exact @Bcj.AddressBit.shift [b0, b1, b2, b3] _ _ _ (by simp)
        (ih fun heq => hne (hright'.trans (heq.trans hright.symm)))
  | case2 pos b0 b1 b2 b3 rest h ih =>
    rcases Nat.lt_or_ge p 2 with hp | hp
    · have hleft := bitOf_left (a := [b0, b1]) (l := pairScan f start (pos + 2) (b2 :: b3 :: rest)) j hp
      have hleft' := bitOf_left (a := [b0, b1]) (l := b2 :: b3 :: rest) j hp
      exact absurd (hleft.trans hleft'.symm) hne
    · obtain ⟨p, rfl⟩ := Nat.exists_eq_add_of_le hp
      have hright := bitOf_right [b0, b1] (b2 :: b3 :: rest) p j
      have hright' := bitOf_right [b0, b1] (pairScan f start (pos + 2) (b2 :: b3 :: rest)) p j
      exact @Bcj.AddressBit.shift [b0, b1] _ _ _ (by simp)
        (ih fun heq => hne (hright'.trans (heq.trans hright.symm)))
  | case3 pos l h => exact absurd rfl hne

/-- **Only address bits change.** -/
theorem Bcj.convert_frame (hx86 : kind ≠ .x86) {buf : Bytes} {p j : Nat}
    (hne : bitOf (kind.convert f start buf) p j ≠ bitOf buf p j) : kind.AddressBit buf p j := by
  have hj : j < 8 := by
    by_contra hj
    exact hne (by rw [bitOf_high _ _ (Nat.not_lt.mp hj), bitOf_high _ _ (Nat.not_lt.mp hj)])
  by_cases hthumb : kind = .armThumb
  · subst hthumb
    exact pairScan_frame 0 hj hne
  · exact mapUnits_frame hx86 hthumb hj hne

/-- A byte that no matching instruction covers stays. -/
theorem Bcj.convert_elsewhere (hx86 : kind ≠ .x86) {buf : Bytes} {p : Nat}
    (h : ∀ i c, ¬ kind.MatchOver buf p i c) : (kind.convert f start buf)[p]? = buf[p]? := by
  have hlen := @Bcj.convert_length f start kind hx86 buf
  by_cases hp : p < buf.length
  · have hb := List.getElem?_eq_getElem hp
    have hb' := List.getElem?_eq_getElem (l := kind.convert f start buf) (i := p) (by omega)
    rw [hb, hb']
    refine congrArg some (byte_of_bits fun j hj => ?_)
    rw [← bitOf_eq hb, ← bitOf_eq hb']
    by_contra hne
    obtain ⟨i, c, hmatch, -⟩ := Bcj.convert_frame hx86 hne
    exact h i c hmatch
  · rw [List.getElem?_eq_none (by omega), List.getElem?_eq_none (by omega)]

/-! ### What makes a branch one -/

/-- The pattern of a split code lies away from the addresses of the codes it is clear of. -/
theorem split_clear {s t : Split} (h : s = t ∨ Split.Clear s t) {m : Nat}
    (haddress : s.code.addressBit m = true) (hpattern : t.code.patternBit m = true) : False := by
  have haway : ∀ p ∈ t.pattern, Away s.lo s.len p.lo p.len ∧ Away s.hi s.hiLen p.lo p.len := by
    rcases h with rfl | h
    · exact s.around
    · exact h.pattern
  obtain ⟨p, hp, hin⟩ := List.any_eq_true.mp hpattern
  obtain ⟨hlo, hhi⟩ := haway p hp
  rw [Bool.and_eq_true, decide_eq_true_eq, decide_eq_true_eq] at hin
  unfold Away at hlo hhi
  rcases Bool.or_eq_true_iff.mp haddress with hbit | hbit
  · have := of_decide_eq_true hbit
    omega
  · have := of_decide_eq_true hbit
    omega

/-- In a unit, but for SPARC, no pattern bit is an address bit. -/
theorem Bcj.unit_clear (hsparc : kind ≠ .sparc) {c d : BranchCode} (hc : c ∈ kind.codes)
    (hd : d ∈ kind.codes) {m : Nat} (haddress : c.addressBit m = true)
    (hpattern : d.patternBit m = true) : False := by
  cases kind
  case x86 => cases hc
  case sparc => exact hsparc rfl
  case ia64 =>
    have hmem : ∀ {e : BranchCode}, e ∈ Bcj.ia64.codes → ∃ s, e = (ia64Split s).code := by
      intro e he
      have : e = (ia64Split 0).code ∨ e = (ia64Split 1).code ∨ e = (ia64Split 2).code := by
        simpa [Bcj.codes] using he
      rcases this with rfl | rfl | rfl
      · exact ⟨0, rfl⟩
      · exact ⟨1, rfl⟩
      · exact ⟨2, rfl⟩
    obtain ⟨s, rfl⟩ := hmem hc
    obtain ⟨t, rfl⟩ := hmem hd
    refine split_clear ?_ haddress hpattern
    by_cases hst : s = t
    · exact Or.inl (congrArg ia64Split hst)
    · exact Or.inr (ia64_clear hst)
  all_goals
    cases List.mem_singleton.mp hc
    cases List.mem_singleton.mp hd
    exact split_clear (Or.inl rfl) haddress hpattern

/-- A bit at which two ARM-Thumb pairs overlap is an address bit in both or in neither. -/
theorem pair_clear {i i' p j : Nat} (hi : i % 2 = 0) (hi' : i' % 2 = 0) (hle : i ≤ p)
    (hle' : i' ≤ p) (haddress : armthumbSplit.code.addressBit (8 * (p - i) + j) = true)
    (hpattern : armthumbSplit.code.patternBit (8 * (p - i') + j) = true) : False := by
  have haddress : (16 ≤ 8 * (p - i) + j ∧ 8 * (p - i) + j < 16 + 11) ∨
      (0 ≤ 8 * (p - i) + j ∧ 8 * (p - i) + j < 0 + 11) := by
    rcases Bool.or_eq_true_iff.mp haddress with h | h
    · exact Or.inl (of_decide_eq_true h)
    · exact Or.inr (of_decide_eq_true h)
  obtain ⟨q, hq, hin⟩ := List.any_eq_true.mp hpattern
  rw [Bool.and_eq_true, decide_eq_true_eq, decide_eq_true_eq] at hin
  have hq : q = exactly 11 5 0x1E ∨ q = exactly 27 5 0x1F := by
    simpa [Split.code, armthumbSplit] using hq
  rcases hq with rfl | rfl
  · simp only [exactly] at hin
    omega
  · simp only [exactly] at hin
    omega

/-- A byte lies in one unit. -/
theorem Bcj.site_unique (hx86 : kind ≠ .x86) (hthumb : kind ≠ .armThumb) {i i' p : Nat}
    (hi : i % kind.alignment = 0) (hi' : i' % kind.alignment = 0) (hle : i ≤ p) (hle' : i' ≤ p)
    (hlt : p < i + kind.unit) (hlt' : p < i' + kind.unit) : i = i' := by
  cases kind
  case x86 => exact absurd rfl hx86
  case armThumb => exact absurd rfl hthumb
  all_goals
    simp only [Bcj.alignment, Bcj.unit] at *
    omega

/-- But for SPARC, what decides a match is no address bit. -/
theorem Bcj.pattern_clear (hx86 : kind ≠ .x86) (hsparc : kind ≠ .sparc) {buf : Bytes} {p j : Nat}
    (hpattern : kind.PatternBit buf.length p j) : ¬ kind.AddressBit buf p j := by
  rintro ⟨i, c, ⟨⟨hsite, hroom⟩, hle, hlt, hc, -⟩, hbit⟩
  obtain ⟨i', d, ⟨hsite', hroom'⟩, hle', hlt', hd, hbit'⟩ := hpattern
  by_cases hthumb : kind = .armThumb
  · subst hthumb
    cases List.mem_singleton.mp hc
    cases List.mem_singleton.mp hd
    exact pair_clear hsite hsite' hle hle' hbit hbit'
  · cases Bcj.site_unique hx86 hthumb hsite hsite' hle hle' hlt hlt'
    exact Bcj.unit_clear hsparc hc hd hbit hbit'

/-- A unit of the result is the unit converted. -/
theorem Bcj.convert_site (hx86 : kind ≠ .x86) (hthumb : kind ≠ .armThumb) {buf : Bytes} {i : Nat}
    (hi : kind.Site buf.length i) :
    ((kind.convert f start buf).drop i).take kind.unit =
      kind.convertUnit f start i ((buf.drop i).take kind.unit) := by
  obtain ⟨halign, hroom⟩ := hi
  have hunit : kind.alignment = kind.unit := by
    cases kind
    case x86 => exact absurd rfl hx86
    case armThumb => exact absurd rfl hthumb
    all_goals rfl
  have hpos : 0 < kind.unit := by cases kind <;> decide
  rw [hunit] at halign
  obtain ⟨q, rfl⟩ := Nat.dvd_of_mod_eq_zero halign
  rw [Nat.mul_comm] at hroom ⊢
  refine Bcj.convert_unit hx86 hthumb ?_
  rw [Nat.lt_iff_add_one_le, Nat.le_div_iff_mul_le hpos, Nat.succ_mul]
  exact hroom

/-- The bits of the word of a unit are bits of the buffer. -/
theorem Bcj.testBit_wordAt {buf : Bytes} {i k j : Nat} (hi : kind.Site buf.length i)
    (hk : k < kind.unit) (hj : j < 8) :
    (kind.wordAt buf i).testBit (kind.bitAt k j) = bitOf buf (i + k) j := by
  have hlen := window_length hi.2
  have hb := List.getElem?_eq_getElem (l := (buf.drop i).take kind.unit) (i := k) (by omega)
  rw [Bcj.wordAt, Bcj.testBit_word hlen hj hb, ← bitOf_eq hb, ← bitOf_window j
    (Nat.le_add_right i k) (Nat.add_lt_add_left hk i), Nat.add_sub_cancel_left]

/-- **Matches stay.** -/
theorem Bcj.convert_matches (hx86 : kind ≠ .x86) {buf : Bytes} {i : Nat}
    (hi : kind.Site buf.length i) {c : BranchCode} (hc : c ∈ kind.codes) :
    c.isBranch (kind.wordAt (kind.convert f start buf) i) = c.isBranch (kind.wordAt buf i) := by
  by_cases hthumb : kind = .armThumb
  · subst hthumb
    have hlen := @Bcj.convert_length f start .armThumb hx86 buf
    have hi' : Bcj.armThumb.Site (Bcj.armThumb.convert f start buf).length i := by rwa [hlen]
    refine isBranch_congr fun m hm => ?_
    have hm32 : m < 8 * Bcj.armThumb.unit := by
      cases List.mem_singleton.mp hc
      obtain ⟨q, hq, hin⟩ := List.any_eq_true.mp hm
      rw [Bool.and_eq_true, decide_eq_true_eq, decide_eq_true_eq] at hin
      have hq : q = exactly 11 5 0x1E ∨ q = exactly 27 5 0x1F := by
        simpa [Split.code, armthumbSplit] using hq
      show m < 32
      rcases hq with rfl | rfl
      · simp only [exactly] at hin
        omega
      · simp only [exactly] at hin
        omega
    obtain ⟨k, j, hk, hj, rfl⟩ := Bcj.bitAt_surj hm32
    rw [Bcj.testBit_wordAt hi' hk hj, Bcj.testBit_wordAt hi hk hj]
    by_contra hne
    refine Bcj.pattern_clear hx86 (by decide) ?_ (Bcj.convert_frame hx86 hne)
    exact ⟨i, c, hi, Nat.le_add_right i k, Nat.add_lt_add_left hk i, hc,
      by rwa [Nat.add_sub_cancel_left]⟩
  · rw [Bcj.wordAt, Bcj.convert_site hx86 hthumb hi,
      Bcj.isBranch_convertUnit (window_length hi.2) hc]
    rfl

/-- The bits of a SPARC displacement above its address, which copy the address's sign. -/
def Bcj.SignBit (kind : Bcj) (p j : Nat) : Prop :=
  kind = .sparc ∧ (p % 4 = 0 ∧ j < 6 ∨ p % 4 = 1 ∧ 6 ≤ j)

/-- **What decides a match stays**, but for the sign bits of SPARC. -/
theorem Bcj.convert_pattern (hx86 : kind ≠ .x86) {buf : Bytes} {p j : Nat}
    (hpattern : kind.PatternBit buf.length p j) (hsign : ¬ kind.SignBit p j) :
    bitOf (kind.convert f start buf) p j = bitOf buf p j := by
  by_contra hne
  have hchanged := Bcj.convert_frame hx86 hne
  by_cases hsparc : kind = .sparc
  · subst hsparc
    have hj : j < 8 := by
      by_contra hj
      exact hne (by rw [bitOf_high _ _ (Nat.not_lt.mp hj), bitOf_high _ _ (Nat.not_lt.mp hj)])
    obtain ⟨i, c, ⟨⟨hsite, -⟩, hle, hlt, hc, -⟩, hbit⟩ := hchanged
    obtain ⟨i', d, ⟨hsite', -⟩, hle', hlt', hd, hbit'⟩ := hpattern
    cases List.mem_singleton.mp hc
    cases List.mem_singleton.mp hd
    cases Bcj.site_unique hx86 (by decide) hsite hsite' hle hle' hlt hlt'
    have haddress : 8 * (4 - 1 - (p - i)) + j < 30 := of_decide_eq_true hbit
    obtain ⟨q, hq, hin⟩ := List.any_eq_true.mp hbit'
    cases List.mem_singleton.mp hq
    rw [Bool.and_eq_true, decide_eq_true_eq, decide_eq_true_eq] at hin
    have hlow : 22 ≤ 8 * (4 - 1 - (p - i)) + j := hin.1
    have hsite : i % 4 = 0 := hsite
    have hlt : p < i + 4 := hlt
    exact hsign ⟨rfl, by omega⟩
  · exact Bcj.pattern_clear hx86 hsparc hpattern hchanged

end Frame

/-- **The fixed-pattern converters lose nothing.** On the buffers of a length every one is total and
keeps the length, in range throughout, and a bijection; from an aligned start the scan that adds the
position is its inverse. A bit that changes is an address bit of an instruction that matches, so what
no such instruction covers stays, and a trailing partial unit with it; an instruction matches after
as it did before; and the bits that decide a match stay, but for the bits of SPARC that copy the
address's sign. -/
theorem fixed_pattern_lossless {kind : Bcj} (hkind : kind ≠ .x86) (start : UInt32) {n : Nat}
    (hn : n ≤ isizeMax) :
    (∀ buf : Bytes, buf.length = n →
      ∃ out, decode kind start buf = .ok out ∧ out.length = n) ∧
    (∀ out : Bytes, out.length = n →
      ∃! buf : Bytes, buf.length = n ∧ decode kind start buf = .ok out) ∧
    (start.toNat % kind.alignment = 0 → ∀ buf : Bytes, buf.length = n →
      decode kind start buf = .ok (kind.convert (· - ·) start buf) ∧
      kind.convert (· + ·) start (kind.convert (· - ·) start buf) = buf ∧
      decode kind start (kind.convert (· + ·) start buf) = .ok buf) ∧
    ∀ buf out : Bytes, buf.length = n → decode kind start buf = .ok out →
      (∀ p j, bitOf out p j ≠ bitOf buf p j → kind.AddressBit buf p j) ∧
      (∀ p, (∀ i c, ¬ kind.MatchOver buf p i c) → out[p]? = buf[p]?) ∧
      (∀ i c, kind.Site n i → c ∈ kind.codes →
        c.isBranch (kind.wordAt out i) = c.isBranch (kind.wordAt buf i)) ∧
      (∀ p j, kind.PatternBit n p j → ¬ kind.SignBit p j → bitOf out p j = bitOf buf p j) := by
  have hw : ∀ {b : Bytes}, b.length = n → b.length < wordSize := by
    intro b hb
    unfold isizeMax wordSize at *
    omega
  have hdecode : ∀ {b : Bytes}, b.length = n →
      decode kind start b = .ok (kind.convert (· - ·) start b) :=
    fun hb => decode_eq_convert hkind start (hw hb)
  have hlength : ∀ f s {b : Bytes}, b.length = n → (kind.convert f s b).length = n :=
    fun f s b hb => (Bcj.convert_length hkind b).trans hb
  have hscaled := Bcj.scaled hkind
  have hundone : ∀ s : UInt32, s.toNat % 2 ^ kind.scale = 0 → ∀ b,
      kind.convert (· + ·) s (kind.convert (· - ·) s b) = b := fun s hs b =>
    Bcj.convert_undo hkind hs (fun _ hpos _ ha => relocated_add_sub hscaled hpos ha) b
  have hundo : ∀ s : UInt32, s.toNat % 2 ^ kind.scale = 0 → ∀ b,
      kind.convert (· - ·) s (kind.convert (· + ·) s b) = b := fun s hs b =>
    Bcj.convert_undo hkind hs (fun _ hpos _ ha => relocated_sub_add hscaled hpos ha) b
  refine ⟨fun buf hbuf => ⟨_, hdecode hbuf, hlength _ _ hbuf⟩, fun out hout => ?_,
    fun haligned buf hbuf => ?_, fun buf out hbuf hout => ?_⟩
  · -- An unaligned start decodes as the next aligned one.
    have haligned := roundUp_aligned (Bcj.scale_cases hkind) start
    have hlen := hlength (· + ·) (roundUp kind.scale start) hout
    refine ⟨kind.convert (· + ·) (roundUp kind.scale start) out, ⟨hlen, ?_⟩, ?_⟩
    · rw [hdecode hlen, Bcj.convert_roundUp hkind, hundo _ haligned]
    · rintro buf ⟨hbuf, hbuf'⟩
      rw [hdecode hbuf, Bcj.convert_roundUp hkind] at hbuf'
      cases hbuf'
      exact (hundone _ haligned buf).symm
  · rw [Bcj.alignment_eq] at haligned
    exact ⟨hdecode hbuf, hundone start haligned buf,
      by rw [hdecode (hlength _ _ hbuf), hundo start haligned]⟩
  · rw [hdecode hbuf] at hout
    cases hout
    subst hbuf
    exact ⟨fun p j hne => Bcj.convert_frame hkind hne,
      fun p helse => Bcj.convert_elsewhere hkind helse,
      fun i c hi hc => Bcj.convert_matches hkind hi hc,
      fun p j hpattern hsign => Bcj.convert_pattern hkind hpattern hsign⟩

/-- A branch of ARM at the start, and its target counted from it. -/
theorem fixed_pattern_lossless_sample :
    decode .arm 0 [0x05, 0x00, 0x00, 0xEB] = .ok [0x03, 0x00, 0x00, 0xEB] ∧
      Bcj.arm.convert (· + ·) 0 (Bcj.arm.convert (· - ·) 0 [0x05, 0x00, 0x00, 0xEB]) =
        [0x05, 0x00, 0x00, 0xEB] := by
  obtain ⟨hdecode, hundone, -⟩ :=
    (@fixed_pattern_lossless .arm (by decide) 0 4 (by decide)).2.2.1 rfl
      [0x05, 0x00, 0x00, 0xEB] rfl
  exact ⟨hdecode.trans (by decide), hundone⟩

/-- A call of SPARC that a converter moves below the start: the bits over its address, which the
match asks to be alike, change with its sign. -/
theorem fixed_pattern_lossless_sparc_sign :
    decode .sparc 4 [0x40, 0x00, 0x00, 0x00] = .ok [0x7F, 0xFF, 0xFF, 0xFF] ∧
      Bcj.sparc.PatternBit 4 1 6 ∧
      bitOf [0x7F, 0xFF, 0xFF, 0xFF] 1 6 ≠ bitOf [0x40, 0x00, 0x00, 0x00] 1 6 :=
  ⟨by decide, ⟨0, sparcCode, ⟨rfl, by decide⟩, by decide, by decide, List.mem_singleton.mpr rfl,
    by decide⟩, by decide⟩

end Squashfs.Xz
