import Squashfs.Path

/-!
# Who reports `NotADirectory`

About the errors of `lookup_path_bytes` (`src/fs.rs:526-535`). A walk reports `NotADirectory` when a
component is looked up in something else. No other part of it may: not the device, not a codec, not
a record that does not decode. This module follows the error through every function a walk calls;
each reports others only. Below the cursor it does so for every error that is `Foreign` to blocks
and codecs.

**`avoids_lookup`**: a lookup in a directory does not report it. **`exec_walk_notADirectory`**: a
walk reports it exactly when a component is applied to something reached that is not a directory.
-/

namespace Squashfs

open Foundation

/-! ## Blocks -/

@[simp] theorem avoids_u16At {e : Error} (b : Bytes) (i : Nat) :
    Avoids e (u16At b i : Res UInt16) := by
  simp [u16At]

@[simp] theorem avoids_u32At {e : Error} (b : Bytes) (i : Nat) :
    Avoids e (u32At b i : Res UInt32) := by
  simp [u32At]

@[simp] theorem avoids_okOr {α : Type} {e e' : Error} {o : Option α} (h : e' ≠ e) :
    Avoids e (okOr e' o) := by
  cases o <;> simp [okOr, h]

/-- An error that blocks and codecs do not report. -/
class Foreign (e : Error) : Prop where
  text : ∀ why, why ≠ "directory listing runs past the end of the directory table" →
    Error.badMetadata why ≠ e
  block : ∀ b, Error.block b ≠ e
  codec : ∀ id, Error.unsupportedCompression id ≠ e
  inode : ∀ why, Error.badInode why ≠ e

instance : Foreign .notADirectory where
  text := nofun
  block := nofun
  codec := nofun
  inode := nofun

instance : Foreign (.badMetadata Filesystem.PAST_TABLE_END) where
  text _ h heq := h (Error.badMetadata.inj heq)
  block := nofun
  codec := nofun
  inode := nofun

section Foreign

variable {e : Error} [Foreign e]

@[simp] theorem foreign_text {why : String}
    (h : why ≠ "directory listing runs past the end of the directory table") :
    ¬ Error.badMetadata why = e := Foreign.text why h

@[simp] theorem foreign_block (b : BlockError) : ¬ Error.block b = e := Foreign.block b

@[simp] theorem foreign_codec (id : UInt16) : ¬ Error.unsupportedCompression id = e :=
  Foreign.codec id

@[simp] theorem foreign_inode (why : String) : ¬ Error.badInode why = e := Foreign.inode why

namespace Xz

@[simp] theorem avoids_varintLoop (buf : Bytes) (turns i : Nat) (value : UInt64) (pos : Nat) :
    Avoids e (varintLoop buf turns i value pos) := by
  induction turns generalizing i value pos with
  | zero => simp [varintLoop]
  | succ turns ih => simp [varintLoop, ih]

@[simp] theorem avoids_varint (buf : Bytes) (pos : Nat) :
    Avoids e (varint buf pos) := by
  simp [varint]

omit [Foreign e] in
@[simp] theorem avoids_zeroPadding {why : String} (h : ¬ Error.badMetadata why = e) (buf : Bytes)
    (start turns pos : Nat) : Avoids e (zeroPadding why buf start turns pos) := by
  induction turns generalizing pos with
  | zero => simp [zeroPadding]
  | succ turns ih => simp [zeroPadding, ih, h]

omit [Foreign e] in
theorem avoids_hasFilters (stream : Bytes) : Avoids e (hasFilters stream) := by
  unfold hasFilters
  cases getFrom stream 12 with
  | none => simp
  | some header =>
    simp
    split <;> simp
    split <;> simp

@[simp] theorem avoids_fromId (id : UInt64) : Avoids e (Bcj.fromId id) := by
  simp [Bcj.fromId]

@[simp] theorem avoids_bcjStart (props : Bytes) : Avoids e (bcjStart props) := by
  unfold bcjStart
  split <;> simp

@[simp] theorem avoids_checkLzma2 (props : Bytes) : Avoids e (checkLzma2 props) := by
  unfold checkLzma2
  split <;> simp

@[simp] theorem avoids_readFilter (body : Bytes) (filters : Nat) (st : Option (Bcj × UInt32) × Nat)
    (i : Nat) : Avoids e (readFilter body filters st i) := by
  simp [readFilter]

@[simp] theorem avoids_optVarint (present : Bool) (body : Bytes) (pos : Nat) :
    Avoids e (optVarint present body pos) := by
  simp [optVarint]

@[simp] theorem avoids_readHeader (codecs : Codecs) (stream : Bytes) (pos : Nat) (sizeByte : UInt8) :
    Avoids e (readHeader codecs stream pos sizeByte) := by
  simp [readHeader, readHeaderBody, avoids_foldlM]

@[simp] theorem avoids_decodeLzma2 (codecs : Codecs) (payload : Bytes) (limit : Nat) :
    Avoids e (decodeLzma2 codecs payload limit) := by
  rw [decodeLzma2_unmetered]
  refine avoids_bind.mpr ⟨?_, fun _ _ => by simp⟩
  rcases ((codecs.lzma2 payload).1.into ⟨[], limit⟩).result with (_ | _ | _) | _ <;> simp [mapErr]

/-- A block fits its sink. -/
theorem length_of_decodeLzma2 {codecs : Codecs} {payload : Bytes} {limit : Nat}
    {r : Bytes × Nat} (h : decodeLzma2 codecs payload limit = .ok r) : r.1.length ≤ limit := by
  exact (below_decodeLzma2 codecs payload (Nat.le_refl limit)).value r h

@[simp] theorem avoids_blockPayload (stream : Bytes) (dataStart : Nat)
    (compressedSize : Option UInt64) :
    Avoids e (blockPayload stream dataStart compressedSize) := by
  cases compressedSize <;> simp [blockPayload]

@[simp] theorem avoids_verifyCheck (codecs : Codecs) (check : UInt8) (block storedCheck : Bytes) :
    Avoids e (verifyCheck codecs check block storedCheck) := by
  simp [verifyCheck]

@[simp] theorem avoids_readBlock (codecs : Codecs) (stream : Bytes) (maxOut : Nat)
    (runFilter : Bool) (check : UInt8) (checkLen : Nat) (st : Progress) (sizeByte : UInt8) :
    Avoids e
      (readBlock codecs stream maxOut runFilter check checkLen st sizeByte) := by
  rw [readBlock_unmetered]
  unfold closeBlock
  refine avoids_bind.mpr ⟨by simp, fun h _ => avoids_bind.mpr ⟨by simp, fun dataStart _ => ?_⟩⟩
  refine avoids_bind.mpr ⟨by simp, fun payload _ => avoids_bind.mpr ⟨by simp, fun r hr => ?_⟩⟩
  obtain ⟨block, consumed⟩ := r
  have hlen : block.length < wordSize :=
    Nat.lt_of_le_of_lt (length_of_decodeLzma2 hr) (saturatingAdd_lt _ _)
  cases h.bcj with
  | none => simp [blockPadding]
  | some bcj =>
    obtain ⟨converted, hconverted, -⟩ := decode_keeps bcj.1 bcj.2 block hlen
    simp [blockPadding, hconverted]

@[simp] theorem avoids_checkIndexAndFooter (codecs : Codecs) (tail : Bytes)
    (records : List (UInt64 × UInt64)) (headerFlags : Bytes) :
    Avoids e (checkIndexAndFooter codecs tail records headerFlags) := by
  have hrecord : ∀ pos record, Avoids e (checkRecord tail pos record) := fun pos
    record => by simp [checkRecord]
  simp [checkIndexAndFooter, checkFooter, indexPadding, avoids_foldlM, hrecord]

@[simp] theorem avoids_readBlocks (codecs : Codecs) (stream : Bytes) (maxOut : Nat)
    (runFilter : Bool) (flags : Bytes) (check : UInt8) (checkLen turns : Nat) (st : Progress) :
    Avoids e
      (readBlocks codecs stream maxOut runFilter flags check checkLen turns st) := by
  induction turns generalizing st with
  | zero => exact avoids_diverge
  | succ turns ih => simp [readBlocks_unmetered, ih]

theorem avoids_decompress (codecs : Codecs) (stream : Bytes) (maxOut : Nat) :
    Avoids e (decompress codecs stream maxOut) := by
  show Avoids e (decompressWith codecs stream maxOut true)
  simp [decompressWith_unmetered, readStreamHeader, startsWithMagic, checkLength]

end Xz

omit [Foreign e] in
theorem avoids_withinMax (maxOut : Nat) (out : Bytes)
    (h : ¬ Error.badMetadata "decompressed block exceeds max size" = e) :
    Avoids e (withinMax maxOut out) := by
  simp [withinMax, h]

omit [Foreign e] in
theorem avoids_mapErr {α : Type} {why : String} (h : ¬ Error.badMetadata why = e)
    (x : Outcome Unit α) : Avoids e (mapErr (fun () => Error.badMetadata why) x) := by
  rcases x with (_ | _ | _) | _ <;> simp [mapErr, h]

omit [Foreign e] in
theorem avoids_decodeCapped {why : String} (h : ¬ Error.badMetadata why = e)
    (hmax : ¬ Error.badMetadata "decompressed block exceeds max size" = e) (d : Decoding)
    (maxOut : Nat) : Avoids e (decodeCapped why d maxOut).result := by
  rw [result_decodeCapped]
  exact avoids_bind.mpr ⟨avoids_mapErr h _, fun _ _ => avoids_withinMax _ _ hmax⟩

theorem avoids_decompress (codecs : Codecs) (comp : Compressor) (input : Bytes) (maxOut : Nat) :
    Avoids e (decompress codecs comp input maxOut) := by
  cases comp with
  | gzip =>
    show Avoids _ (decompressZlib codecs input maxOut).result
    rw [result_decompressZlib]
    split <;> simp [withinMax]
  | xz =>
    show Avoids _ (decompressXz codecs input maxOut).result
    rw [result_decompressXz]
    exact avoids_bind.mpr ⟨Xz.avoids_hasFilters input, fun _ _ => avoids_ite.mpr
      ⟨fun _ => Xz.avoids_decompress codecs input maxOut,
        fun _ => avoids_decodeCapped (by simp) (by simp) _ _⟩⟩
  | lzma => exact avoids_decodeCapped (by simp) (by simp) _ _
  | lz4 =>
    show Avoids _ (decompressLz4 codecs input maxOut).result
    rw [result_decompressLz4]
    split <;> simp
  | zstd =>
    show Avoids _ (decompressZstd codecs input maxOut).result
    rw [result_decompressZstd]
    split
    · simp
    · exact avoids_bind.mpr ⟨avoids_mapErr (by simp) _, fun _ _ => avoids_withinMax _ _ (by simp)⟩
  | lzo =>
    show Avoids _ (decompressLzo codecs input maxOut).result
    rw [result_decompressLzo]
    split <;> simp

@[simp] theorem avoids_read (dev : Device) (offset n : Nat) :
    Avoids e (dev.read offset n) := by
  unfold Device.read
  split <;> simp

/-- **No block's decoding reports a foreign error.** -/
theorem avoids_uncached (codecs : Codecs) (dev : Device) (sb : Superblock) (comp : Compressor)
    (q : Req) : Avoids e (uncached codecs dev sb comp q) := by
  cases q with
  | block abs =>
    simp [uncached, readBlockUncached, unpackBlock, Superblock.compressor, Compressor.fromId,
      avoids_decompress]
  | data abs sizeWord maxOut => simp [uncached, decodeDataBlock, avoids_decompress]

end Foreign

/-! ## Cursors and inodes -/

section Spares

variable {f : ∀ q, Reply q} {σ α β : Type}

/-- No run of the program reports it. -/
def Spares (f : ∀ q, Reply q) (m : Stateful Req Reply Error σ α) : Prop :=
  ∀ s, Avoids .notADirectory (Stateful.exec f m s).1

theorem spares_pure (a : α) : Spares f (pure a : Stateful Req Reply Error σ α) :=
  fun _ => avoids_ok a

theorem spares_get : Spares f (get : Stateful Req Reply Error σ σ) := fun s => avoids_ok s

theorem spares_set (s : σ) : Spares f (set s : Stateful Req Reply Error σ PUnit) :=
  fun _ => avoids_ok _

theorem spares_throw {e : Fail Error} (h : e ≠ .err .notADirectory) :
    Spares f (throw e : Stateful Req Reply Error σ α) :=
  fun _ h' => h (Except.error.inj h')

theorem spares_lift {x : Res α} (h : Avoids .notADirectory x) :
    Spares f (liftM x : Stateful Req Reply Error σ α) := fun s => by
  rw [Stateful.exec_lift]
  exact h

theorem spares_ofAsking {m : Prog α} (h : Avoids .notADirectory (Asking.exec f m)) :
    Spares f (Stateful.ofAsking m : Stateful Req Reply Error σ α) := fun s => by
  rw [Stateful.exec_ofAsking]
  exact h

theorem spares_bind {m : Stateful Req Reply Error σ α} {k : α → Stateful Req Reply Error σ β}
    (hm : Spares f m) (hk : ∀ a, Spares f (k a)) : Spares f (m >>= k) := by
  intro s
  have h := hm s
  rw [Stateful.exec_bind]
  rcases hrun : Stateful.exec f m s with ⟨x, s'⟩
  rw [hrun] at h
  cases x with
  | ok a => exact hk a s'
  | error e => exact fun h' => h (congrArg Except.error (Except.error.inj h'))

theorem spares_ite {c : Prop} [Decidable c] {m m' : Stateful Req Reply Error σ α}
    (hm : Spares f m) (hm' : Spares f m') : Spares f (if c then m else m') := by
  split
  · exact hm
  · exact hm'

end Spares

/-- Answers that never report it. -/
abbrev Quiet (f : ∀ q, Reply q) : Prop := ∀ q, Avoids .notADirectory (f q)

variable {f : ∀ q, Reply q}

theorem avoids_new (hq : Quiet f) (startAbs : Nat) (inBlock : UInt16) :
    Avoids .notADirectory (Asking.exec f (MetaCursor.new startAbs inBlock)) := by
  unfold MetaCursor.new
  rw [Asking.exec_bind, exec_readBlock]
  refine avoids_bind.mpr ⟨hq _, fun r _ => ?_⟩
  rw [Asking.exec_ite]
  simp

namespace MetaCursor

theorem spares_refill (hq : Quiet f) : Spares f refill := by
  unfold refill
  refine spares_bind spares_get fun cur => spares_bind (spares_lift ?_) fun _ => ?_
  · unfold checkLimit
    split <;> simp
  · refine spares_bind (spares_ofAsking (hq _)) fun r => ?_
    refine spares_ite (spares_throw (by simp)) ?_
    exact spares_bind (spares_lift avoids_sliceFrom) fun _ => spares_set _

theorem spares_ensureLoop (hq : Quiet f) (n turns : Nat) : Spares f (ensureLoop n turns) := by
  induction turns with
  | zero =>
    refine spares_bind spares_get fun cur => spares_bind (spares_lift avoids_sub64) fun _ => ?_
    exact spares_ite (spares_throw (by simp)) (spares_pure _)
  | succ turns ih =>
    refine spares_bind spares_get fun cur => spares_bind (spares_lift avoids_sub64) fun _ => ?_
    exact spares_ite (spares_bind (spares_refill hq) fun _ => ih) (spares_pure _)

theorem spares_readExact (hq : Quiet f) (n : Nat) : Spares f (readExact n) := by
  refine spares_bind (spares_ensureLoop hq n n) fun _ => spares_bind spares_get fun cur => ?_
  refine spares_bind (spares_lift ?_) fun _ => spares_bind (spares_set _) fun _ => spares_pure _
  simp [take]

theorem spares_readU16 (hq : Quiet f) : Spares f readU16 :=
  spares_bind (spares_readExact hq 2) fun b => spares_lift (by simp [u16Of])

theorem spares_readU32 (hq : Quiet f) : Spares f readU32 :=
  spares_bind (spares_readExact hq 4) fun b => spares_lift (by simp [u32Of])

theorem spares_readU64 (hq : Quiet f) : Spares f readU64 :=
  spares_bind (spares_readExact hq 8) fun b => spares_lift (by simp [u64Of])

end MetaCursor

/-- The inode parser does not report it, whatever the stream holds. -/
theorem spares_readBody (hq : Quiet f) (blockSize : Nat) : Spares f (Inode.readBody blockSize) := by
  have h : Inode.FieldRule (fun _ m => Spares f m) blockSize := {
    pure := spares_pure
    bind := spares_bind
    bad := fun _ => spares_throw (by simp)
    word16 := MetaCursor.spares_readU16 hq
    word32 := MetaCursor.spares_readU32 hq
    word64 := MetaCursor.spares_readU64 hq
    bytes := fun size => MetaCursor.spares_readExact hq size.toNat
    count := fun fileSize fragment => spares_lift (by simp [blockCount]) }
  exact h.readBody

/-! ## Listings and lookups -/

@[simp] theorem avoids_parseEntry {e : Error} (he : ∀ why, .badDirent why ≠ e) (buf : Bytes)
    (start baseInode : UInt32) (p : Nat) : Avoids e (parseEntry buf start baseInode p) := by
  simp [parseEntry, he]

theorem avoids_parseEntries {e : Error} (he : ∀ why, .badDirent why ≠ e) (buf : Bytes)
    (start baseInode : UInt32) (entries : Nat) (out : List DirEntry) (p : Nat) :
    Avoids e (parseEntries buf start baseInode entries out p) := by
  induction entries generalizing out p with
  | zero => simp [parseEntries]
  | succ entries ih => simp [parseEntries, avoids_parseEntry he, ih]

theorem avoids_parseRun {e : Error} (he : ∀ why, .badDirent why ≠ e) (buf : Bytes)
    (out : List DirEntry) (p : Nat) : Avoids e (parseRun buf out p) := by
  unfold parseRun
  simp only [avoids_bind, avoids_ite, avoids_add64, avoids_u32At, avoids_err, he, ne_eq, true_and,
    not_false_eq_true, implies_true]
  intro _ _ _ _ _ _ _ _ _ _ _ _
  split <;> simp [he, avoids_parseEntries he]

/-- A listing's parsing reports bad entries only. -/
theorem avoids_parseListing {e : Error} (he : ∀ why, .badDirent why ≠ e) (buf : Bytes) :
    Avoids e (parseListing buf) := by
  have hruns : ∀ turns out p, Avoids e (parseRuns buf turns out p) := by
    intro turns
    induction turns with
    | zero => simp [parseRuns]
    | succ turns ih => simp [parseRuns, avoids_parseRun he, ih]
  exact hruns _ _ _

namespace Filesystem

variable {fs : Filesystem}

theorem avoids_readInode (hq : Quiet f) (inodeRef : UInt64) :
    Avoids .notADirectory (Asking.exec f (fs.readInode inodeRef)) := by
  unfold readInode Inode.read parseAt
  rw [Asking.exec_bind]
  refine avoids_bind.mpr ⟨avoids_new hq _ _, fun cur _ => ?_⟩
  rw [Stateful.exec_eval]
  exact spares_readBody hq _ cur

/-- Listing a directory does not report it. -/
theorem avoids_readDir (hq : Quiet f) {dir : Inode} (hdir : dir.isDir = true) :
    Avoids .notADirectory (Asking.exec f (fs.readDir dir)) := by
  unfold readDir readListing
  rw [Asking.exec_ite, if_neg (not_not_intro hdir), Asking.exec_ite]
  refine avoids_ite.mpr ⟨fun _ => avoids_ok _, fun _ => ?_⟩
  rw [Asking.exec_bind, Asking.exec_bind]
  refine avoids_bind.mpr ⟨avoids_bind.mpr ⟨avoids_new hq _ _, fun cur _ => ?_⟩, fun buf _ => ?_⟩
  · rw [Stateful.exec_eval]
    exact MetaCursor.spares_readExact hq _ _
  · exact avoids_parseListing (by simp) buf

/-- **A lookup in a directory does not report it.** -/
theorem avoids_lookup (hq : Quiet f) {dir : Inode} (hdir : dir.isDir = true) (name : Bytes) :
    Avoids .notADirectory (Asking.exec f (fs.lookup dir name)) := by
  rw [exec_lookup]
  refine avoids_bind.mpr ⟨avoids_readDir hq hdir, fun entries _ => ?_⟩
  cases entries.find? (·.name == name) with
  | none => simp
  | some e => exact avoids_readInode hq _

/-- **A walk reports it exactly** when a component is applied to something that is not a
directory. -/
theorem exec_walk_notADirectory (hq : Quiet f) (node : Inode) (comps : List Bytes) :
    Asking.exec f (fs.walk node comps) = fails .notADirectory ↔
      ∃ before comp after reached, comps = before ++ comp :: after ∧
        Asking.exec f (fs.walk node before) = .ok reached ∧ reached.isDir = false := by
  induction comps generalizing node with
  | nil =>
    constructor
    · intro h
      cases h
    · rintro ⟨before, comp, after, reached, h, -⟩
      cases before <;> cases h
  | cons comp comps ih =>
    rw [exec_walk_cons]
    by_cases hdir : node.isDir = true
    · rw [if_neg (not_not_intro hdir)]
      have hlookup : Avoids .notADirectory (Asking.exec f (fs.lookup node comp)) :=
        avoids_lookup hq hdir comp
      constructor
      · intro h
        rcases hx : Asking.exec f (fs.lookup node comp) with e | next
        · rw [hx] at h hlookup
          exact absurd h hlookup
        · rw [hx, ok_bind] at h
          obtain ⟨before, c, after, reached, rfl, hreached, hnot⟩ := (ih next).mp h
          refine ⟨comp :: before, c, after, reached, rfl, ?_, hnot⟩
          rw [exec_walk_cons, if_neg (not_not_intro hdir), hx, ok_bind, hreached]
      · rintro ⟨before, c, after, reached, h, hreached, hnot⟩
        cases before with
        | nil =>
          cases hreached
          rw [hdir] at hnot
          cases hnot
        | cons comp' before =>
          cases h
          rw [exec_walk_cons, if_neg (not_not_intro hdir)] at hreached
          obtain ⟨next, hx, hreached⟩ := bind_eq_ok.mp hreached
          rw [hx, ok_bind]
          exact (ih next).mpr ⟨before, c, after, reached, rfl, hreached, hnot⟩
    · rw [if_pos hdir]
      exact ⟨fun _ => ⟨[], comp, comps, node, rfl, rfl, by simpa using hdir⟩, fun _ => rfl⟩

end Filesystem

end Squashfs
