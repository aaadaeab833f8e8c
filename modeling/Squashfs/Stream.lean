import Squashfs.Metablock

/-!
# The stream a cursor reads

About `MetaCursor` (`src/metablock.rs:283-410`). `Segments` are the consecutive blocks ahead of a
cursor, and `cursorSource` says which bytes the stream ahead begins with: the unread window, then
those blocks, however the stream is cut.

**`parses_readExact`**: a read of `n` bytes succeeds exactly when the stream ahead has `n` bytes,
gives them, and moves past them. From it `parses_readU16` and its siblings, and **`exec_parseAt`**:
a reader opened at a reference succeeds exactly when the stream there (`StreamAt`) begins with a
word of its grammar.
-/

namespace Squashfs

open Foundation

variable {f : ∀ q, Reply q}

/-- Whether the limit lets a block at `abs` be pulled. -/
def Within (limit : Option (Nat × String)) (abs : Nat) : Prop :=
  ∀ stop why, limit = some (stop, why) → abs < stop

theorem checkLimit_eq_ok {limit : Option (Nat × String)} {abs : Nat} :
    MetaCursor.checkLimit limit abs = .ok () ↔ Within limit abs := by
  unfold MetaCursor.checkLimit Within
  rcases limit with _ | ⟨stop, why⟩
  · simp [pure_eq_ok]
  · by_cases h : stop ≤ abs
    · simp [h]
    · simp [h, pure_eq_ok, Nat.lt_of_not_le h]

/-- The blocks that follow one another from an offset on, each with where it starts: those a
cursor under `limit` can pull, up to the offset reached. -/
inductive Segments (f : ∀ q, Reply q) (limit : Option (Nat × String)) :
    Nat → List (Nat × Bytes) → Nat → Prop
  | nil (abs : Nat) : Segments f limit abs [] abs
  | cons {abs next fin : Nat} {block : Bytes} {segs : List (Nat × Bytes)}
      (hlimit : Within limit abs) (hblock : f (.block abs) = .ok (block, next))
      (hne : block ≠ []) (tail : Segments f limit next segs fin) :
      Segments f limit abs ((abs, block) :: segs) fin

/-- The bytes of segments. -/
def bytesOf (segs : List (Nat × Bytes)) : Bytes := (segs.map Prod.snd).flatten

@[simp] theorem bytesOf_nil : bytesOf [] = [] := rfl

@[simp] theorem bytesOf_cons (abs : Nat) (block : Bytes) (segs : List (Nat × Bytes)) :
    bytesOf ((abs, block) :: segs) = block ++ bytesOf segs := rfl

namespace MetaCursor

/-- The stream ahead of the cursor begins with `w`. -/
def Feeds (f : ∀ q, Reply q) (cur : MetaCursor) (w : Bytes) : Prop :=
  ∃ segs fin, Segments f cur.limit cur.nextAbs segs fin ∧
    w <+: cur.buf.drop cur.pos ++ bytesOf segs

/-- The cursor as a source of bytes. -/
def source (f : ∀ q, Reply q) : Source MetaCursor UInt8 where
  Inv := Good
  Feeds := Feeds f
  feeds_nil _ := ⟨[], _, .nil _, List.nil_prefix⟩
  feeds_prefix w v := fun ⟨segs, fin, h, hp⟩ =>
    ⟨segs, fin, h, (List.prefix_append w v).trans hp⟩

/-! ## Refilling moves no byte -/

theorem refill_eq_ok {cur cur' : MetaCursor} (h : cur.pos ≤ cur.buf.length) :
    Stateful.exec f refill cur = (.ok (), cur') ↔
      ∃ block next, Within cur.limit cur.nextAbs ∧ f (.block cur.nextAbs) = .ok (block, next) ∧
        block ≠ [] ∧
        cur' = { cur with nextAbs := next, buf := cur.buf.drop cur.pos ++ block, pos := 0 } := by
  rw [exec_refill cur h]
  cases hl : checkLimit cur.limit cur.nextAbs with
  | error e =>
    have hno : ¬ Within cur.limit cur.nextAbs := fun hw => by
      rw [checkLimit_eq_ok.mpr hw] at hl
      cases hl
    constructor
    · intro h; cases h
    · rintro ⟨_, _, hw, -⟩; exact absurd hw hno
  | ok u =>
    have hw : Within cur.limit cur.nextAbs := checkLimit_eq_ok.mp hl
    rcases hb : f (.block cur.nextAbs) with e | ⟨block, next⟩
    · constructor
      · intro h; cases h
      · rintro ⟨_, _, _, h, -⟩; cases h
    · dsimp only
      by_cases hempty : block = []
      · subst hempty
        constructor
        · intro h; cases h
        · rintro ⟨_, _, _, h, hne, -⟩; cases h; exact absurd rfl hne
      · rw [if_neg (by rwa [List.isEmpty_iff])]
        constructor
        · intro h; cases h; exact ⟨block, next, hw, rfl, hempty, rfl⟩
        · rintro ⟨_, _, _, h, -, rfl⟩; cases h; rfl

/-- **A refill leaves the stream ahead as it was.** -/
theorem feeds_refill {cur cur' : MetaCursor} (h : cur.Good)
    (hr : Stateful.exec f refill cur = (.ok (), cur')) (w : Bytes) :
    cur'.Feeds f w ↔ cur.Feeds f w := by
  obtain ⟨block, next, hw, hblock, hne, rfl⟩ := (refill_eq_ok h.inside).mp hr
  constructor
  · rintro ⟨segs, fin, hs, hp⟩
    refine ⟨_, fin, .cons hw hblock hne hs, ?_⟩
    simpa [List.append_assoc] using hp
  · rintro ⟨segs, fin, hs, hp⟩
    cases hs with
    | nil =>
      refine ⟨[], next, .nil _, ?_⟩
      have hp : w <+: cur.buf.drop cur.pos := by simpa using hp
      simpa using hp.trans (List.prefix_append _ block)
    | cons hlimit hblock' hne' tail =>
      rw [hblock] at hblock'
      cases hblock'
      exact ⟨_, fin, tail, by simpa [List.append_assoc] using hp⟩

/-- A cursor with more ahead than its window holds can be refilled. -/
theorem refill_of_feeds {cur : MetaCursor} (h : cur.Good) {w : Bytes} (hw : cur.Feeds f w)
    (hshort : cur.buf.length - cur.pos < w.length) :
    ∃ cur', Stateful.exec f refill cur = (.ok (), cur') := by
  obtain ⟨segs, fin, hs, hp⟩ := hw
  cases hs with
  | nil =>
    have hle := hp.length_le
    rw [bytesOf_nil, List.append_nil, List.length_drop] at hle
    omega
  | cons hlimit hblock hne tail =>
    exact ⟨_, (refill_eq_ok h.inside).mpr ⟨_, _, hlimit, hblock, hne, rfl⟩⟩

theorem good_of_refill (hf : Tame f) {cur cur' : MetaCursor} (h : cur.Good)
    (hshort : cur.buf.length - cur.pos < maxRead)
    (hr : Stateful.exec f refill cur = (.ok (), cur')) :
    cur'.Good ∧ cur.buf.length - cur.pos < cur'.buf.length - cur'.pos := by
  obtain ⟨h1, h2⟩ := refill_keeps hf h hshort
  rw [hr] at h1 h2
  exact ⟨h2, h1⟩

/-! ## Ensuring moves no byte -/

theorem feeds_ensureLoop (hf : Tame f) {n turns : Nat} (hn : n ≤ maxRead) {cur cur' : MetaCursor}
    (h : cur.Good) (hturns : n ≤ turns + (cur.buf.length - cur.pos))
    (hr : Stateful.exec f (ensureLoop n turns) cur = (.ok (), cur')) (w : Bytes) :
    cur'.Feeds f w ↔ cur.Feeds f w := by
  induction turns generalizing cur with
  | zero =>
    rw [exec_ensureLoop_zero h.inside (by omega)] at hr
    cases hr
    exact Iff.rfl
  | succ turns ih =>
    rw [exec_ensureLoop_succ h.inside] at hr
    split at hr
    · rename_i hshort
      obtain ⟨u, cur₁, hr₁, hr₂⟩ := Stateful.exec_bind_eq_ok.mp hr
      obtain ⟨hg, hlt⟩ := good_of_refill hf h (by omega) hr₁
      rw [ih hg (by omega) hr₂, feeds_refill h hr₁]
    · cases hr
      exact Iff.rfl

theorem ensureLoop_of_feeds (hf : Tame f) {n turns : Nat} (hn : n ≤ maxRead) {cur : MetaCursor}
    (h : cur.Good) (hturns : n ≤ turns + (cur.buf.length - cur.pos)) {w : Bytes}
    (hw : cur.Feeds f w) (hlen : n ≤ w.length) :
    ∃ cur', Stateful.exec f (ensureLoop n turns) cur = (.ok (), cur') := by
  induction turns generalizing cur with
  | zero => exact ⟨cur, exec_ensureLoop_zero h.inside (by omega)⟩
  | succ turns ih =>
    rw [exec_ensureLoop_succ h.inside]
    by_cases hshort : cur.buf.length - cur.pos < n
    · rw [if_pos hshort]
      obtain ⟨cur₁, hr₁⟩ := refill_of_feeds h hw (by omega)
      obtain ⟨hg, hlt⟩ := good_of_refill hf h (by omega) hr₁
      obtain ⟨cur', hr⟩ := ih hg (by omega) ((feeds_refill h hr₁ w).mpr hw)
      exact ⟨cur', by rw [Stateful.exec_bind_ok hr₁, hr]⟩
    · rw [if_neg hshort]
      exact ⟨cur, rfl⟩

/-! ## Reads consume what they give -/

/-- After its first `n` unread bytes the cursor feeds what followed them. -/
theorem feeds_advance {cur : MetaCursor} {n : Nat} (w : Bytes) :
    Feeds f { cur with pos := cur.pos + n } w ↔
      Feeds f cur ((cur.buf.drop cur.pos).take n ++ w) := by
  have hsplit : cur.buf.drop cur.pos =
      (cur.buf.drop cur.pos).take n ++ cur.buf.drop (cur.pos + n) := by
    rw [← List.drop_drop, List.take_append_drop]
  unfold Feeds
  constructor
  · rintro ⟨segs, fin, hs, hp⟩
    refine ⟨segs, fin, hs, ?_⟩
    rw [hsplit, List.append_assoc]
    simpa [List.take_append_drop] using hp
  · rintro ⟨segs, fin, hs, hp⟩
    refine ⟨segs, fin, hs, ?_⟩
    rw [hsplit, List.append_assoc] at hp
    simpa using hp

/-- A successful read, step by step. -/
theorem readExact_eq_ok (hf : Tame f) {n : Nat} (hn : n ≤ maxRead) {cur cur' : MetaCursor}
    (h : cur.Good) {out : Bytes} :
    Stateful.exec f (readExact n) cur = (.ok out, cur') ↔
      ∃ mid, Stateful.exec f (ensureLoop n n) cur = (.ok (), mid) ∧
        out = (mid.buf.drop mid.pos).take n ∧ cur' = { mid with pos := mid.pos + n } := by
  unfold readExact ensure
  rw [Stateful.exec_bind]
  obtain ⟨h1, h2⟩ := ensureLoop_keeps hf hn h (Nat.le_add_right _ _)
  rcases hrun : Stateful.exec f (ensureLoop n n) cur with ⟨x, mid⟩
  rw [hrun] at h1 h2
  cases x with
  | error e => simp
  | ok u =>
    have hle : n ≤ mid.buf.length - mid.pos := h1
    dsimp only
    rw [Stateful.exec_bind, Stateful.exec_get]
    dsimp only
    rw [Stateful.exec_bind, Stateful.exec_lift, take_ok h2 hn hle]
    constructor
    · intro h
      cases h
      exact ⟨mid, rfl, rfl, rfl⟩
    · rintro ⟨mid', hmid, rfl, rfl⟩
      cases hmid
      rfl

/-- **A read of `n` bytes gives the next `n` bytes of the stream**, exactly when it has them. -/
theorem parses_readExact (hf : Tame f) {n : Nat} (hn : n ≤ maxRead) :
    Parses f (source f) (readExact n) fun w out => w = out ∧ out.length = n where
  sound {cur cur' out} h hr := by
    have hkeep := keeps_readExact hf hn cur h
    rw [hr] at hkeep
    obtain ⟨hlen, hgood⟩ := hkeep
    obtain ⟨mid, hmid, rfl, rfl⟩ := (readExact_eq_ok hf hn h).mp hr
    have hens := ensureLoop_keeps hf hn h (Nat.le_add_right n _)
    rw [hmid] at hens
    have hle : n ≤ mid.buf.length - mid.pos := hens.1
    have hrest : ∀ v, Feeds f { mid with pos := mid.pos + n } v ↔
        Feeds f cur ((mid.buf.drop mid.pos).take n ++ v) := fun v => by
      rw [feeds_advance, feeds_ensureLoop hf hn h (Nat.le_add_right n _) hmid]
    refine ⟨_, ⟨rfl, hlen⟩, hgood, ?_, hrest⟩
    have hnil := (hrest []).mp ((source f).feeds_nil hgood)
    rwa [List.append_nil] at hnil
  complete {cur w out} h hw hG := by
    obtain ⟨rfl, hlen⟩ := hG
    obtain ⟨mid, hmid⟩ := ensureLoop_of_feeds hf hn h (Nat.le_add_right n _) hw (by omega)
    have hens := ensureLoop_keeps hf hn h (Nat.le_add_right n _)
    rw [hmid] at hens
    have hle : n ≤ mid.buf.length - mid.pos := hens.1
    have hout : w = (mid.buf.drop mid.pos).take n := by
      obtain ⟨segs, fin, -, hp⟩ := (feeds_ensureLoop hf hn h (Nat.le_add_right n _) hmid w).mpr hw
      have htake := List.prefix_iff_eq_take.mp hp
      rw [hlen, List.take_append_of_le_length (by rw [List.length_drop]; exact hle)] at htake
      exact htake
    have hr := (readExact_eq_ok hf hn h).mpr ⟨mid, hmid, hout, rfl⟩
    have hkeep := keeps_readExact hf hn cur h
    rw [hr] at hkeep
    refine ⟨_, hr, hkeep.2, hw, fun v => ?_⟩
    rw [hout]
    show Feeds f { mid with pos := mid.pos + n } v ↔ _
    rw [feeds_advance, feeds_ensureLoop hf hn h (Nat.le_add_right n _) hmid]
    rfl

theorem parses_readU16 (hf : Tame f) : Parses f (source f) readU16 fun w v => w = u16Bytes v := by
  refine (parses_bind (parses_readExact hf (by decide)) fun b => parses_lift (u16Of b)).congr
    fun w v => ⟨?_, ?_⟩
  · rintro ⟨b, _, _, rfl, ⟨rfl, hlen⟩, rfl, hv⟩
    rw [u16Of_eq hlen] at hv
    cases hv
    rw [List.append_nil, u16Bytes_u16le hlen]
  · rintro rfl
    refine ⟨_, _, [], (List.append_nil _).symm, ⟨rfl, u16Bytes_length v⟩, rfl, ?_⟩
    rw [u16Of_eq (u16Bytes_length v), u16le_u16Bytes]

theorem parses_readU32 (hf : Tame f) : Parses f (source f) readU32 fun w v => w = u32Bytes v := by
  refine (parses_bind (parses_readExact hf (by decide)) fun b => parses_lift (u32Of b)).congr
    fun w v => ⟨?_, ?_⟩
  · rintro ⟨b, _, _, rfl, ⟨rfl, hlen⟩, rfl, hv⟩
    rw [u32Of_eq hlen] at hv
    cases hv
    rw [List.append_nil, u32Bytes_u32le hlen]
  · rintro rfl
    refine ⟨_, _, [], (List.append_nil _).symm, ⟨rfl, u32Bytes_length v⟩, rfl, ?_⟩
    rw [u32Of_eq (u32Bytes_length v), u32le_u32Bytes]

theorem parses_readU64 (hf : Tame f) : Parses f (source f) readU64 fun w v => w = u64Bytes v := by
  refine (parses_bind (parses_readExact hf (by decide)) fun b => parses_lift (u64Of b)).congr
    fun w v => ⟨?_, ?_⟩
  · rintro ⟨b, _, _, rfl, ⟨rfl, hlen⟩, rfl, hv⟩
    rw [u64Of_eq hlen] at hv
    cases hv
    rw [List.append_nil, u64Bytes_u64le hlen]
  · rintro rfl
    refine ⟨_, _, [], (List.append_nil _).symm, ⟨rfl, u64Bytes_length v⟩, rfl, ?_⟩
    rw [u64Of_eq (u64Bytes_length v), u64le_u64Bytes]

end MetaCursor

/-! ## Opening a cursor -/

/-- The stream at byte `inBlock` of the block at `startAbs` begins with `w`. -/
def StreamAt (f : ∀ q, Reply q) (startAbs inBlock : Nat) (w : Bytes) : Prop :=
  ∃ block next segs fin, f (.block startAbs) = .ok (block, next) ∧ inBlock ≤ block.length ∧
    Segments f none next segs fin ∧ w <+: block.drop inBlock ++ bytesOf segs

theorem new_eq_ok {startAbs : Nat} {inBlock : UInt16} {cur : MetaCursor} :
    Asking.exec f (MetaCursor.new startAbs inBlock) = .ok cur ↔
      ∃ block next, f (.block startAbs) = .ok (block, next) ∧ inBlock.toNat ≤ block.length ∧
        cur = ⟨next, block, inBlock.toNat, none⟩ := by
  unfold MetaCursor.new
  rw [Asking.exec_bind, exec_readBlock, bind_eq_ok]
  constructor
  · rintro ⟨⟨block, next⟩, hb, h⟩
    dsimp only at h
    rw [Asking.exec_ite] at h
    split at h
    · cases h
    · cases h
      exact ⟨block, next, hb, by omega, rfl⟩
  · rintro ⟨block, next, hb, hle, rfl⟩
    refine ⟨_, hb, ?_⟩
    dsimp only
    rw [Asking.exec_ite, if_neg (by omega)]
    rfl

/-- Open a cursor and run a reader on it. -/
def parseAt {α : Type} (startAbs : Nat) (inBlock : UInt16) (m : CurM α) : Prog α := do
  let cur ← MetaCursor.new startAbs inBlock
  m.eval cur

/-- **A reader opened at a reference succeeds exactly when the stream there begins with a word of
its grammar.** -/
theorem exec_parseAt (hf : Tame f) {α : Type} {m : CurM α} {G : Bytes → α → Prop}
    (hm : Parses f (MetaCursor.source f) m G) {startAbs : Nat} {inBlock : UInt16} {a : α} :
    Asking.exec f (parseAt startAbs inBlock m) = .ok a ↔
      ∃ w, StreamAt f startAbs inBlock.toNat w ∧ G w a := by
  unfold parseAt
  rw [Asking.exec_bind, bind_eq_ok]
  constructor
  · rintro ⟨cur, hnew, hrun⟩
    have hgood := (MetaCursor.safe_new hf startAbs inBlock).of_eq hnew
    rw [Stateful.exec_eval] at hrun
    obtain ⟨_, hrun⟩ := Stateful.exec_of_fst hrun
    obtain ⟨w, hG, hA⟩ := hm.sound hgood hrun
    obtain ⟨block, next, hb, hle, rfl⟩ := new_eq_ok.mp hnew
    obtain ⟨segs, fin, hs, hp⟩ := hA.feeds
    exact ⟨w, ⟨block, next, segs, fin, hb, hle, hs, hp⟩, hG⟩
  · rintro ⟨w, ⟨block, next, segs, fin, hb, hle, hs, hp⟩, hG⟩
    have hnew := new_eq_ok.mpr ⟨block, next, hb, hle, rfl⟩
    have hgood := (MetaCursor.safe_new hf startAbs inBlock).of_eq hnew
    obtain ⟨cur', hrun, -⟩ := hm.complete hgood ⟨segs, fin, hs, hp⟩ hG
    exact ⟨_, hnew, by rw [Stateful.exec_eval, hrun]⟩

/-- A safe reader opened at a reference returns. -/
theorem returns_parseAt (hf : Tame f) {α : Type} {P : α → Prop} {m : CurM α}
    (hm : Keeps f MetaCursor.Good P m) (startAbs : Nat) (inBlock : UInt16) :
    Safe P (Asking.exec f (parseAt startAbs inBlock m)) := by
  unfold parseAt
  rw [Asking.exec_bind]
  refine safe_bind (MetaCursor.safe_new hf startAbs inBlock) fun cur hcur => ?_
  rw [Stateful.exec_eval]
  exact (hm cur hcur).1

end Squashfs
