import Squashfs.Foundation.Asked
import Squashfs.File

/-!
# No read at a wrapped offset

About the offsets that the reader adds up: `block_offsets` (`src/fs.rs:661-677`), the start of a
listing (`fs.rs:463-467`) and `MetadataRef::start_abs` (`src/metablock.rs:250-252`). They are added
up with saturation, so a sum is its exact integer or the last offset of all, where no device can be
read.

`ReadsFrom` says that every block an operation asks for lies on the chain of metadata blocks from an
exact start, or that the start does not fit in 64 bits and the operation fails.
**`reads_exact_offsets`**: inodes, listings, attribute sets and out-of-line values are read so, and
a file's data blocks each at the exact sum of the sizes before it.
-/

namespace Squashfs

open Foundation

variable {f : ∀ q, Reply q}

/-! ## Chains of metadata blocks -/

/-- The block at `next` follows the one at `abs`. -/
def Follows (f : ∀ q, Reply q) (abs next : Nat) : Prop := ∃ block, f (.block abs) = .ok (block, next)

/-- The block at an offset lies on the chain from `start`. -/
def OnChain (f : ∀ q, Reply q) (start : Nat) : Nat → Prop := Relation.ReflTransGen (Follows f) start

theorem OnChain.next {start abs next : Nat} (h : OnChain f start abs) (hnext : Follows f abs next) :
    OnChain f start next := .tail h hnext

/-- A request of a metadata block at an offset with `R`. -/
def BlockIn (R : Nat → Prop) (q : Req) : Prop := ∃ abs, q = .block abs ∧ R abs

/-- A block follows another right after its header and payload. -/
theorem follows_exact {codecs : Codecs} {dev : Device} {sb : Superblock} {comp : Compressor}
    {abs next : Nat} (h : Follows (uncached codecs dev sb comp) abs next) :
    ∃ hdr, dev.read abs 2 = .ok hdr ∧ next = abs + 2 + (u16le hdr &&& SIZE_MASK).toNat := by
  obtain ⟨block, h⟩ := h
  change readBlockUncached codecs dev sb abs = .ok (block, next) at h
  unfold readBlockUncached at h
  obtain ⟨hdr, hhdr, h⟩ := bind_eq_ok.mp h
  dsimp only at h
  split at h
  · cases h
  · obtain ⟨payloadAt, hat, h⟩ := bind_eq_ok.mp h
    obtain ⟨payload, -, h⟩ := bind_eq_ok.mp h
    obtain ⟨out, -, h⟩ := bind_eq_ok.mp h
    rw [hat, ok_bind] at h
    obtain ⟨last, hlast, h⟩ := bind_eq_ok.mp h
    obtain ⟨-, rfl⟩ := add64_eq_ok.mp hat
    obtain ⟨-, rfl⟩ := add64_eq_ok.mp hlast
    cases h
    exact ⟨hdr, hhdr, rfl⟩

namespace MetaCursor

/-- The next block the cursor pulls is at an offset with `R`. -/
def NextIn (R : Nat → Prop) (cur : MetaCursor) : Prop := R cur.nextAbs

section Chains

variable {R : Nat → Prop} {B : Req → Prop}

theorem within_readBlock {abs : Nat} (h : R abs) :
    Asking.Within f (BlockIn R) B (readBlock abs) := by
  intro q hq
  obtain rfl := List.mem_singleton.mp hq
  exact .inl ⟨abs, rfl, h⟩

theorem nextAbs_take {cur cur' : MetaCursor} {n : Nat} {out : Bytes}
    (h : take cur n = .ok (out, cur')) : cur'.nextAbs = cur.nextAbs := by
  unfold take at h
  obtain ⟨stop, -, h⟩ := bind_eq_ok.mp h
  obtain ⟨window, -, h⟩ := bind_eq_ok.mp h
  cases h
  rfl

variable (hR : ∀ {abs next}, R abs → Follows f abs next → R next)
include hR

theorem confined_refill :
    Stateful.Confined f (NextIn R) (BlockIn R) B refill := by
  intro cur hcur
  refine Stateful.confinedAt_get_bind hcur (Stateful.confinedAt_lift_bind hcur fun _ _ =>
    Stateful.confinedAt_ofAsking_bind hcur (within_readBlock hcur) fun (block, next) hread => ?_)
  refine Stateful.confinedAt_ite (fun _ => Stateful.confinedAt_throw _) fun _ =>
    Stateful.confinedAt_lift_bind hcur fun _ _ => Stateful.confinedAt_set ?_
  exact hR hcur ⟨block, hread⟩

theorem confined_ensureLoop (n turns : Nat) :
    Stateful.Confined f (NextIn R) (BlockIn R) B (ensureLoop n turns) := by
  induction turns with
  | zero =>
    intro cur hcur
    refine Stateful.confinedAt_get_bind hcur (Stateful.confinedAt_lift_bind hcur fun _ _ => ?_)
    exact Stateful.confinedAt_ite (fun _ => Stateful.confinedAt_throw _)
      fun _ => Stateful.confinedAt_pure hcur _
  | succ turns ih =>
    intro cur hcur
    refine Stateful.confinedAt_get_bind hcur (Stateful.confinedAt_lift_bind hcur fun _ _ => ?_)
    exact Stateful.confinedAt_ite (fun _ => Stateful.confined_bind (confined_refill hR)
      (fun _ => ih) cur hcur) fun _ => Stateful.confinedAt_pure hcur _

/-- **A read pulls blocks of the chain only.** -/
theorem confined_readExact (n : Nat) :
    Stateful.Confined f (NextIn R) (BlockIn R) B (readExact n) := by
  intro cur hcur
  refine Stateful.confinedAt_bind (confined_ensureLoop hR n n cur hcur) fun _ mid _ hmid =>
    Stateful.confinedAt_get_bind hmid (Stateful.confinedAt_lift_bind hmid fun (out, last) htake => ?_)
  refine Stateful.confinedAt_bind (Stateful.confinedAt_set ?_) fun _ _ _ hs =>
    Stateful.confinedAt_pure hs _
  show R last.nextAbs
  rw [nextAbs_take htake]
  exact hmid

theorem confined_readU16 :
    Stateful.Confined f (NextIn R) (BlockIn R) B readU16 :=
  Stateful.confined_bind (confined_readExact hR 2) fun _ => Stateful.confined_lift _

theorem confined_readU32 :
    Stateful.Confined f (NextIn R) (BlockIn R) B readU32 :=
  Stateful.confined_bind (confined_readExact hR 4) fun _ => Stateful.confined_lift _

theorem confined_readU64 :
    Stateful.Confined f (NextIn R) (BlockIn R) B readU64 :=
  Stateful.confined_bind (confined_readExact hR 8) fun _ => Stateful.confined_lift _

/-- The inode parser pulls blocks of the chain only. -/
theorem confined_readBody (blockSize : Nat) :
    Stateful.Confined f (NextIn R) (BlockIn R) B (Inode.readBody blockSize) := by
  have h : Inode.FieldRule
      (fun _ m => Stateful.Confined f (NextIn R) (BlockIn R) B m) blockSize := {
    pure := fun a => Stateful.confined_pure a
    bind := fun hm hg => Stateful.confined_bind hm hg
    bad := fun _ => Stateful.confined_throw _
    word16 := confined_readU16 hR
    word32 := confined_readU32 hR
    word64 := confined_readU64 hR
    bytes := fun size => confined_readExact hR size.toNat
    count := fun _ _ => Stateful.confined_lift _ }
  exact h.readBody

theorem confined_readSized (why : String) :
    Stateful.Confined f (NextIn R) (BlockIn R) B (Xattr.readSized why) :=
  Stateful.confined_bind (confined_readU32 hR) fun _ =>
    Stateful.confined_ite (fun _ => Stateful.confined_throw _) fun _ => confined_readExact hR _

end Chains

end MetaCursor

/-! ## Exact starts -/

/-- Where the block of a packed reference starts, as an integer. -/
def refStart (tableStart packed : UInt64) : Nat := tableStart.toNat + packed.toNat / 2 ^ 16

/-- The question asks for a block on the chain from `start`, unless `start` does not fit in 64 bits
and the operation `failed`. -/
def ReadExactly (f : ∀ q, Reply q) (start : Nat) (q : Req) (failed : Prop) : Prop :=
  start < wordSize ∧ BlockIn (OnChain f start) q ∨ wordSize ≤ start ∧ failed

theorem ReadExactly.mono {start : Nat} {q : Req} {failed failed' : Prop}
    (h : ReadExactly f start q failed) (himp : failed → failed') :
    ReadExactly f start q failed' :=
  h.imp id fun h => ⟨h.1, himp h.2⟩

/-- Every block the operation asks for lies on the chain from `start`, or `start` does not fit in
64 bits and the operation fails. -/
def ReadsFrom {α : Type} (f : ∀ q, Reply q) (start : Nat) (m : Prog α) : Prop :=
  ∀ q ∈ Asking.asked f m, ReadExactly f start q (∃ e, Asking.exec f m = fails e)

/-- No block is read at the last offset of all. -/
def LastFails (f : ∀ q, Reply q) : Prop := ∃ e, f (.block (wordSize - 1)) = fails e

theorem lastFails_uncached (codecs : Codecs) (dev : Device) (sb : Superblock) (comp : Compressor) :
    LastFails (uncached codecs dev sb comp) := by
  have hsafe := safe_readBlockUncached codecs dev sb (wordSize - 1)
  obtain ⟨r, hr⟩ | h := hsafe.returns.cases
  · obtain ⟨-, hlt, hle⟩ := hsafe.of_eq hr
    have hsize := dev.size_lt
    omega
  · exact h

theorem startAbs_eq (tableStart packed : UInt64) :
    (MetadataRef.fromPacked packed).startAbs tableStart =
      min (refStart tableStart packed) (wordSize - 1) := by
  unfold MetadataRef.startAbs MetadataRef.fromPacked refStart saturatingAdd
  rw [UInt64.toNat_shiftRight]
  simp [Nat.shiftRight_eq_div_pow]

theorem within_new {R : Nat → Prop} {B : Req → Prop} {startAbs : Nat} (h : R startAbs)
    (inBlock : UInt16) : Asking.Within f (BlockIn R) B (MetaCursor.new startAbs inBlock) :=
  Asking.within_bind (MetaCursor.within_readBlock h) fun _ _ =>
    Asking.within_ite (fun _ => Asking.within_throw _) fun _ => Asking.within_pure _

/-- A cursor opened at `startAbs` stands on the chain from there. -/
theorem onChain_new {startAbs : Nat} {inBlock : UInt16} {cur : MetaCursor}
    (h : Asking.exec f (MetaCursor.new startAbs inBlock) = .ok cur) :
    OnChain f startAbs cur.nextAbs := by
  obtain ⟨block, next, hread, -, rfl⟩ := new_eq_ok.mp h
  exact .single ⟨block, hread⟩

theorem exec_new_fails {e : Error} {startAbs : Nat} (h : f (.block startAbs) = fails e)
    (inBlock : UInt16) : Asking.exec f (MetaCursor.new startAbs inBlock) = fails e := by
  unfold MetaCursor.new
  rw [Asking.exec_bind, exec_readBlock, h]
  rfl

/-- **What is read through a cursor opened at a saturated sum is read from the exact sum.** -/
theorem readsFrom_open (hlast : LastFails f) {α : Type} {start : Nat} {inBlock : UInt16}
    {k : MetaCursor → Prog α}
    (hk : ∀ cur, OnChain f start cur.nextAbs →
      Asking.Within f (BlockIn (OnChain f start)) (fun _ => False) (k cur)) :
    ReadsFrom f start (MetaCursor.new (min start (wordSize - 1)) inBlock >>= k) := by
  intro q hq
  by_cases hfits : start < wordSize
  · rw [Nat.min_eq_left (Nat.le_sub_one_of_lt hfits)] at hq
    have hwithin := Asking.within_bind (within_new .refl inBlock) fun cur hcur =>
      hk cur (onChain_new hcur)
    exact .inl ⟨hfits, (hwithin q hq).resolve_right fun h => h.1⟩
  · obtain ⟨e, he⟩ := hlast
    have hmin : min start (wordSize - 1) = wordSize - 1 := by omega
    refine .inr ⟨Nat.le_of_not_lt hfits, e, ?_⟩
    rw [hmin, Asking.exec_bind, exec_new_fails he]
    rfl

theorem ReadsFrom.bind {α β : Type} {start : Nat} {m : Prog α} {k : α → Prog β}
    (h : ReadsFrom f start m) (hk : ∀ a, Asking.asked f (k a) = []) :
    ReadsFrom f start (m >>= k) := by
  intro q hq
  rcases Asking.mem_asked_bind hq with hq | ⟨a, -, hq⟩
  · refine (h q hq).imp id ?_
    rintro ⟨hle, e, he⟩
    exact ⟨hle, e, by rw [Asking.exec_bind, he]; rfl⟩
  · rw [hk a] at hq
    exact absurd hq List.not_mem_nil

theorem readsFrom_read (hlast : LastFails f) (sb : Superblock) (inodeRef : UInt64) :
    ReadsFrom f (refStart sb.inodeTableStart inodeRef) (Inode.read sb inodeRef) := by
  unfold Inode.read parseAt
  dsimp only
  rw [startAbs_eq]
  exact readsFrom_open hlast fun cur hcur =>
    (MetaCursor.confined_readBody OnChain.next _ cur hcur).within_eval

theorem readsFrom_readOolValue (hlast : LastFails f) (table : XattrIdTable) (packed : UInt64) :
    ReadsFrom f (refStart table.tableStart packed) (Xattr.readOolValue table packed) := by
  unfold Xattr.readOolValue parseAt
  dsimp only
  rw [startAbs_eq]
  exact readsFrom_open hlast fun cur hcur =>
    (MetaCursor.confined_readSized OnChain.next _ cur hcur).within_eval

theorem readsFrom_readDir (hlast : LastFails f) (fs : Filesystem) (inode : Inode) :
    ReadsFrom f (fs.sb.directoryTableStart.toNat + inode.dirStartBlock.toNat)
      (fs.readDir inode) := by
  unfold Filesystem.readDir
  split
  · exact fun q hq => absurd hq List.not_mem_nil
  split
  · exact fun q hq => absurd hq List.not_mem_nil
  refine ReadsFrom.bind ?_ fun _ => rfl
  unfold Filesystem.readListing
  have hstart : fs.listingStart inode =
      min (fs.sb.directoryTableStart.toNat + inode.dirStartBlock.toNat) (wordSize - 1) := by
    unfold Filesystem.listingStart MetadataRef.startAbs saturatingAdd
    rw [UInt32.toNat_toUInt64]
  rw [hstart]
  exact readsFrom_open hlast fun cur hcur =>
    (MetaCursor.confined_readExact OnChain.next _ (cur.withLimit _ _) hcur).within_eval

/-! ## Attribute sets -/

namespace Xattr

open MetaCursor

/-- The cursor came along the stream that `first` stood at the beginning of, over the word `w`. -/
structure Along (f : ∀ q, Reply q) (start : Nat) (first cur : MetaCursor) : Prop where
  next : OnChain f start cur.nextAbs
  after : ∃ w, (source f).After first w cur

/-- A question for a block of an out-of-line value whose reference the stream at `first` holds. -/
def OutOfLine (f : ∀ q, Reply q) (table : XattrIdTable) (first : MetaCursor) (failed : Prop)
    (q : Req) : Prop :=
  ∃ w target, first.Feeds f (w ++ u64Bytes target) ∧
    ReadExactly f (refStart table.tableStart target) q failed

variable {start : Nat} {first : MetaCursor} {table : XattrIdTable}

/-- A reader that pulls blocks of the chain goes along the stream. -/
theorem confined_along {α : Type} {P B : Req → Prop} {m : CurM α} {G : Bytes → α → Prop}
    (hm : Stateful.Confined f (NextIn (OnChain f start)) P B m) (hp : Parses f (source f) m G) :
    Stateful.Confined f (Along f start first) P B m := by
  rintro cur ⟨hnext, w, hw⟩
  refine ⟨(hm cur hnext).asks, fun a cur' hrun => ⟨(hm cur hnext).keeps a cur' hrun, ?_⟩⟩
  obtain ⟨w', -, hw'⟩ := hp.sound hw.inv hrun
  exact ⟨w ++ w', hw.trans hw'⟩

/-- A question for a block of the set's chain, or of an out-of-line value's. -/
def SetBlock (f : ∀ q, Reply q) (table : XattrIdTable) (start : Nat) (first : MetaCursor)
    (q : Req) : Prop :=
  BlockIn (OnChain f start) q ∨ OutOfLine f table first False q

theorem confined_set {α : Type} {m : CurM α} {G : Bytes → α → Prop}
    (hm : Stateful.Confined f (NextIn (OnChain f start)) (BlockIn (OnChain f start))
      (OutOfLine f table first True) m) (hp : Parses f (source f) m G) :
    Stateful.Confined f (Along f start first) (SetBlock f table start first)
      (OutOfLine f table first True) m :=
  fun cur hcur => (confined_along hm hp cur hcur).mono fun _ => .inl

theorem confined_readValue (hf : Tame f) (hlast : LastFails f) (rawType : UInt16) :
    Stateful.Confined f (Along f start first) (SetBlock f table start first)
      (OutOfLine f table first True) (readValue table rawType) := by
  unfold readValue
  refine Stateful.confined_ite (fun _ => ?_) fun _ =>
    confined_set (confined_readSized OnChain.next _) (parses_readSized hf _)
  refine Stateful.confined_bind (confined_set (confined_readU32 OnChain.next) (parses_readU32 hf))
    fun vsize => Stateful.confined_ite (fun _ => Stateful.confined_throw _) fun _ => ?_
  intro cur hcur
  refine Stateful.confinedAt_bind (confined_set (confined_readU64 OnChain.next) (parses_readU64 hf)
    cur hcur) fun target cur' hrun hcur' => Stateful.confinedAt_ofAsking hcur' fun q hq => ?_
  -- the reference is the eight bytes the cursor has just come over
  obtain ⟨w, hw⟩ := hcur.after
  obtain ⟨_, rfl, hw'⟩ := (parses_readU64 hf).sound hw.inv hrun
  have hfeeds : first.Feeds f (w ++ u64Bytes target) := (hw.trans hw').feeds
  rcases readsFrom_readOolValue hlast table target q hq with hfits | ⟨hlong, e, he⟩
  · exact .inl (.inr ⟨w, target, hfeeds, .inl hfits⟩)
  · exact .inr ⟨⟨w, target, hfeeds, .inr ⟨hlong, trivial⟩⟩, _, he⟩

theorem confined_readPair (hf : Tame f) (hlast : LastFails f) :
    Stateful.Confined f (Along f start first) (SetBlock f table start first)
      (OutOfLine f table first True) (readPair table) := by
  unfold readPair
  refine Stateful.confined_bind (confined_set (confined_readU16 OnChain.next) (parses_readU16 hf))
    fun rawType => Stateful.confined_bind
      (confined_set (confined_readU16 OnChain.next) (parses_readU16 hf)) fun nameSize =>
    Stateful.confined_ite (fun _ => Stateful.confined_throw _) fun _ => ?_
  have hread : Stateful.Confined f (Along f start first) (SetBlock f table start first)
      (OutOfLine f table first True) (readExact nameSize.toNat) :=
    confined_set (confined_readExact OnChain.next _)
      (parses_readExact hf (Nat.le_trans (Nat.le_of_lt nameSize.toNat_lt) (by decide)))
  exact Stateful.confined_bind hread fun suffix => Stateful.confined_bind (Stateful.confined_lift _)
    fun name => Stateful.confined_bind (confined_readValue hf hlast rawType) fun value =>
      Stateful.confined_pure _

theorem confined_readPairs (hf : Tame f) (hlast : LastFails f) (size : UInt32) (count : Nat)
    (out : List XattrEntry) (total : Nat) :
    Stateful.Confined f (Along f start first) (SetBlock f table start first)
      (OutOfLine f table first True) (readPairs table size count out total) := by
  induction count generalizing out total with
  | zero =>
    exact Stateful.confined_ite (fun _ => Stateful.confined_throw _) fun _ => Stateful.confined_pure _
  | succ count ih =>
    refine Stateful.confined_bind (confined_readPair hf hlast) fun e => Stateful.confined_bind
      (Stateful.confined_lift _) fun total' => ?_
    exact Stateful.confined_ite (fun _ => Stateful.confined_throw _) fun _ => ih _ _

/-- What a cursor opened at a reference is fed is the stream there. -/
theorem streamAt_of_feeds {startAbs : Nat} {inBlock : UInt16} {cur : MetaCursor}
    (hnew : Asking.exec f (MetaCursor.new startAbs inBlock) = .ok cur) {w : Bytes}
    (h : cur.Feeds f w) : StreamAt f startAbs inBlock.toNat w := by
  obtain ⟨block, next, hread, hle, rfl⟩ := new_eq_ok.mp hnew
  obtain ⟨segs, fin, hs, hp⟩ := h
  exact ⟨block, next, segs, fin, hread, hle, hs, hp⟩

/-- **A set's blocks are read from the exact sum of its reference**, and an out-of-line value's
from the exact sum of a reference that the set's own stream holds. -/
theorem readsFrom_readSet (hf : Tame f) (hlast : LastFails f) (i : UInt32) {q : Req}
    (hq : q ∈ Asking.asked f (readSet table i)) :
    ∃ id, table.ids[i.toNat]? = some id ∧
      (ReadExactly f (refStart table.tableStart id.xattrRef) q
          (∃ e, Asking.exec f (readSet table i) = fails e) ∨
        ∃ w target, StreamAtRef f table id.xattrRef (w ++ u64Bytes target) ∧
          ReadExactly f (refStart table.tableStart target) q
            (∃ e, Asking.exec f (readSet table i) = fails e)) := by
  have hret := returns_readSet hf table i
  unfold readSet at hq hret ⊢
  rcases Asking.mem_asked_bind hq with hq | ⟨id, hid, hq⟩
  · exact absurd hq List.not_mem_nil
  refine ⟨id, okOr_eq_ok.mp hid, ?_⟩
  rw [Asking.exec_bind, hid, ok_bind] at hret ⊢
  split at hq
  · exact absurd hq List.not_mem_nil
  rename_i hcount
  rw [if_neg hcount] at hret ⊢
  unfold parseAt at hq hret ⊢
  unfold StreamAtRef
  dsimp only at hq hret ⊢
  rw [startAbs_eq] at hq hret ⊢
  by_cases hfits : refStart table.tableStart id.xattrRef < wordSize
  · rw [Nat.min_eq_left (Nat.le_sub_one_of_lt hfits)] at hq hret ⊢
    rcases Asking.mem_asked_bind hq with hq | ⟨cur, hnew, hq⟩
    · have hwithin := within_new (f := f) (B := fun _ => False) (R := OnChain f _) .refl _ q hq
      exact .inl (.inl ⟨hfits, hwithin.resolve_right fun h => h.1⟩)
    have hgood := (MetaCursor.safe_new hf _ _).of_eq hnew
    have hpairs := (@confined_readPairs f (refStart table.tableStart id.xattrRef) cur table hf hlast
      id.size id.count.toNat [] 0 cur ⟨onChain_new hnew, [], .nil hgood⟩).within_eval q hq
    rcases hpairs with (hchain | ⟨w, target, hfeeds, hread⟩) | ⟨⟨w, target, hfeeds, hread⟩, e, he⟩
    · exact .inl (.inl ⟨hfits, hchain⟩)
    · exact .inr ⟨w, target, streamAt_of_feeds hnew hfeeds, hread.mono False.elim⟩
    · rw [Asking.exec_bind, hnew, ok_bind] at hret ⊢
      obtain ⟨a, ha⟩ | herr := hret.cases
      · rw [he] at ha
        cases ha
      · exact .inr ⟨w, target, streamAt_of_feeds hnew hfeeds, hread.mono fun _ => herr⟩
  · obtain ⟨e, he⟩ := hlast
    rw [Nat.min_eq_right (by omega)] at hq hret ⊢
    refine .inl (.inr ⟨Nat.le_of_not_lt hfits, e, ?_⟩)
    rw [Asking.exec_bind, exec_new_fails he]
    rfl

end Xattr

/-! ## Data blocks -/

namespace Filesystem

/-- Where data block `i` of a file starts, as an integer: the low 24 bits of the size words before
it add up. -/
def dataStart (inode : Inode) (i : Nat) : Nat :=
  inode.blocksStart.toNat + ((inode.blockSizes.take i).map fun size => size.toNat % 2 ^ 24).sum

/-- The question asks for full block `i` at the exact integer, unless that does not fit in 64 bits
and the operation `failed`. -/
def FullBlockRead (inode : Inode) (i : Nat) (q : Req) (failed : Prop) : Prop :=
  ∃ sizeWord maxOut, inode.blockSizes[i]? = some sizeWord ∧ sizeWord.toNat % 2 ^ 24 ≠ 0 ∧
    (dataStart inode i < wordSize ∧ q = .data (dataStart inode i) sizeWord maxOut ∨
      wordSize ≤ dataStart inode i ∧ failed)

/-- The question asks for the fragment block of a file. -/
def FragmentRead (fs : Filesystem) (inode : Inode) (q : Req) : Prop :=
  ∃ frag, fs.fragments[inode.fragmentIndex.toNat]? = some frag ∧
    q = .data frag.start.toNat frag.size fs.sb.blockSize.toNat

/-- No bytes of a data block are read at the last offset of all. -/
def LastDataFails (f : ∀ q, Reply q) : Prop :=
  ∀ sizeWord maxOut, (dataOnDiskSize sizeWord).toNat ≠ 0 →
    ∃ e, f (.data (wordSize - 1) sizeWord maxOut) = fails e

theorem lastDataFails_answers (codecs : Codecs) (fs : Filesystem) :
    LastDataFails (fs.answers codecs) := by
  intro sizeWord maxOut hne
  show ∃ e, decodeDataBlock codecs fs.dev fs.sb fs.comp (wordSize - 1) sizeWord maxOut = fails e
  unfold decodeDataBlock
  dsimp only
  split
  · exact ⟨_, rfl⟩
  · obtain ⟨raw, hraw⟩ | ⟨e, he⟩ :=
      (fs.dev.returns_read (wordSize - 1) (dataOnDiskSize sizeWord).toNat).cases
    · have hle := fs.dev.le_of_read hraw (Nat.pos_of_ne_zero hne)
      have hsize := fs.dev.size_lt
      omega
    · exact ⟨e, by rw [he]; rfl⟩

theorem dataOnDiskSize_toNat (size : UInt32) : (dataOnDiskSize size).toNat = size.toNat % 2 ^ 24 := by
  unfold dataOnDiskSize
  rw [UInt32.toNat_and]
  exact Nat.and_two_pow_sub_one_eq_mod _ 24

theorem blockOffset_eq (inode : Inode) (i : Nat) :
    blockOffset inode i = min (dataStart inode i) (wordSize - 1) := by
  unfold blockOffset dataStart
  simp only [dataOnDiskSize_toNat]

variable {fs : Filesystem} {inode : Inode}

theorem within_readFullBlock (hlast : LastDataFails f) (i : Nat) :
    Asking.Within f (fun q => FullBlockRead inode i q False) (fun q => FullBlockRead inode i q True)
      (fs.readFullBlock inode i (blockOffsets inode)) := by
  unfold readFullBlock
  refine Asking.within_bind (Asking.within_lift _) fun _ _ => Asking.within_bind
    (Asking.within_lift _) fun _ _ => Asking.within_bind (Asking.within_lift _) fun sizeWord hword =>
    Asking.within_ite (fun _ => Asking.within_pure _) fun hne => Asking.within_bind
    (Asking.within_lift _) fun absOff habs => ?_
  have hword : inode.blockSizes[i]? = some sizeWord := index_eq_ok.mp hword
  have hi : i < inode.blockSizes.length := (List.getElem?_eq_some_iff.mp hword).1
  have habs : absOff = blockOffset inode i :=
    Except.ok.inj (habs.symm.trans (index_blockOffsets hi))
  rw [blockOffset_eq] at habs
  have hne' : sizeWord.toNat % 2 ^ 24 ≠ 0 := by rwa [← dataOnDiskSize_toNat]
  intro q hq
  by_cases hfits : dataStart inode i < wordSize
  · rw [Nat.min_eq_left (Nat.le_sub_one_of_lt hfits)] at habs
    rcases Asking.mem_asked_bind hq with hq | ⟨block, -, hq⟩
    · obtain rfl := List.mem_singleton.mp hq
      exact .inl ⟨sizeWord, _, hword, hne', .inl ⟨hfits, by rw [habs]⟩⟩
    · split at hq <;> exact absurd hq List.not_mem_nil
  · rw [Nat.min_eq_right (by omega)] at habs
    obtain ⟨e, he⟩ := hlast sizeWord (min fs.sb.blockSize.toNat _) hne
    refine .inr ⟨⟨sizeWord, 0, hword, hne', .inr ⟨Nat.le_of_not_lt hfits, trivial⟩⟩, .err e, ?_⟩
    rw [Asking.exec_bind, exec_readDataBlock, habs, he]
    rfl

theorem within_readFragmentTail {B : Req → Prop} :
    Asking.Within f (fs.FragmentRead inode) B (fs.readFragmentTail inode) := by
  unfold readFragmentTail
  refine Asking.within_bind (Asking.within_lift _) fun frag hfrag => Asking.within_bind ?_ fun _ _ =>
    Asking.within_bind (Asking.within_lift _) fun _ _ => Asking.within_bind (Asking.within_lift _)
    fun _ _ => Asking.within_bind (Asking.within_lift _) fun _ _ =>
    Asking.within_ite (fun _ => Asking.within_throw _) fun _ => Asking.within_pure _
  intro q hq
  obtain rfl := List.mem_singleton.mp hq
  exact .inl ⟨frag, okOr_eq_ok.mp hfrag, rfl⟩

theorem within_readLogicalBlock (hlast : LastDataFails f) (i : Nat) :
    Asking.Within f (fun q => FullBlockRead inode i q False ∨ fs.FragmentRead inode q)
      (fun q => FullBlockRead inode i q True)
      (fs.readLogicalBlock inode i (blockOffsets inode)) :=
  Asking.within_ite (fun _ => (within_readFullBlock hlast i).mono fun _ => .inl) fun _ =>
    Asking.within_ite (fun _ => within_readFragmentTail.mono fun _ => .inr) fun _ =>
      Asking.within_throw _

/-- The position lies in the part of a file that a read covers, and `P` holds of its block. -/
def AtPosition (fs : Filesystem) (offset toRead : Nat) (P : Nat → Prop) : Prop :=
  ∃ p, offset ≤ p ∧ p < offset + toRead ∧ P (p / fs.sb.blockSize.toNat)

variable {offset toRead : Nat}

/-- What a turn of the read loop asks for, when it does not fail. -/
def ChunkRead (fs : Filesystem) (inode : Inode) (offset toRead : Nat) (q : Req) : Prop :=
  fs.AtPosition offset toRead fun i => FullBlockRead inode i q False ∨ fs.FragmentRead inode q

/-- What it asks for when it fails at a saturated offset. -/
def ChunkFails (fs : Filesystem) (inode : Inode) (offset toRead : Nat) (q : Req) : Prop :=
  fs.AtPosition offset toRead fun i => FullBlockRead inode i q True

theorem confined_readChunk (hlast : LastDataFails f) {written : Nat} (hw : written < toRead) :
    Stateful.Confined f (fun _ => True) (fs.ChunkRead inode offset toRead)
      (fs.ChunkFails inode offset toRead)
      (fs.readChunk inode (blockOffsets inode) offset toRead written) := by
  intro buf _
  unfold readChunk
  refine Stateful.confinedAt_lift_bind trivial fun absPos habs => Stateful.confinedAt_lift_bind
    trivial fun blockIdx hidx => Stateful.confinedAt_lift_bind trivial fun blockOff _ => ?_
  obtain ⟨-, rfl⟩ := add64_eq_ok.mp habs
  obtain ⟨-, rfl⟩ := guarded_eq_ok.mp hidx
  refine Stateful.confinedAt_ofAsking_bind trivial (fun q hq => ?_) fun block _ => ?_
  · rcases within_readLogicalBlock hlast _ q hq with h | ⟨h, he⟩
    · exact .inl ⟨offset + written, Nat.le_add_right _ _, by omega, h⟩
    · exact .inr ⟨⟨offset + written, Nat.le_add_right _ _, by omega, h⟩, he⟩
  · refine Stateful.confinedAt_lift_bind trivial fun bytes _ => Stateful.confinedAt_ite
      (fun _ => Stateful.confinedAt_throw _) fun _ => Stateful.confinedAt_lift_bind trivial
      fun src _ => Stateful.confinedAt_get_bind trivial (Stateful.confinedAt_lift_bind trivial
      fun buf' _ => Stateful.confinedAt_bind (Stateful.confinedAt_set trivial) fun _ _ _ _ =>
      Stateful.confinedAt_lift trivial _)

theorem confined_readLoop (hlast : LastDataFails f) (turns written : Nat) :
    Stateful.Confined f (fun _ => True) (fs.ChunkRead inode offset toRead)
      (fs.ChunkFails inode offset toRead)
      (fs.readLoop inode (blockOffsets inode) offset toRead turns written) := by
  induction turns generalizing written with
  | zero =>
    exact Stateful.confined_ite (fun _ => Stateful.confined_throw _) fun _ => Stateful.confined_pure _
  | succ turns ih =>
    exact Stateful.confined_ite (fun hw => Stateful.confined_bind (confined_readChunk hlast hw)
      fun written' => ih written') fun _ => Stateful.confined_pure _

/-- **A file's full blocks are read at the exact sums** of the sizes before them. -/
theorem readFile_asks (hf : Tame f) (hlast : LastDataFails f) (hgeo : inode.Geometry fs.sb)
    (offset : UInt64) (buf : Bytes) {q : Req}
    (hq : q ∈ Stateful.asked f (fs.readFile inode offset) buf) :
    fs.AtPosition offset.toNat (min buf.length (inode.fileSize.toNat - offset.toNat)) fun i =>
      FullBlockRead inode i q (∃ e, (Stateful.exec f (fs.readFile inode offset) buf).1 = fails e) ∨
        fs.FragmentRead inode q := by
  have hconf : Stateful.ConfinedAt f (fun _ => True)
      (fs.ChunkRead inode offset.toNat (min buf.length (inode.fileSize.toNat - offset.toNat)))
      (fs.ChunkFails inode offset.toNat (min buf.length (inode.fileSize.toNat - offset.toNat))) buf
      (fs.readFile inode offset) := by
    unfold readFile readFileWithOffsets
    refine Stateful.confinedAt_ite (fun _ => Stateful.confinedAt_throw _) fun _ =>
      Stateful.confinedAt_get_bind trivial (Stateful.confinedAt_ite
      (fun _ => Stateful.confinedAt_pure trivial _) fun _ =>
      Stateful.confinedAt_lift_bind trivial fun rest hrest => ?_)
    obtain ⟨-, rfl⟩ := sub64_eq_ok.mp hrest
    exact confined_readLoop hlast _ 0 buf trivial
  rcases hconf.asks q hq with ⟨p, hlo, hhi, h | h⟩ | ⟨⟨p, hlo, hhi, h⟩, e, he⟩
  · obtain ⟨sizeWord, maxOut, hword, hne, hat | ⟨-, hno⟩⟩ := h
    · exact ⟨p, hlo, hhi, .inl ⟨sizeWord, maxOut, hword, hne, .inl hat⟩⟩
    · exact hno.elim
  · exact ⟨p, hlo, hhi, .inr h⟩
  · obtain ⟨sizeWord, maxOut, hword, hne, hat | ⟨hlong, -⟩⟩ := h
    · exact ⟨p, hlo, hhi, .inl ⟨sizeWord, maxOut, hword, hne, .inl hat⟩⟩
    · refine ⟨p, hlo, hhi, .inl ⟨sizeWord, maxOut, hword, hne, .inr ⟨hlong, ?_⟩⟩⟩
      obtain ⟨n, hn⟩ | herr := (returns_readFile hf hgeo offset buf).cases
      · rw [he] at hn
        cases hn
      · exact herr

/-- **No read lands at a wrapped offset.** A file's full data blocks are read at the exact sums of
the sizes before them; inodes, listings, out-of-line values and attribute sets from the exact sums
of their table's start and their reference, along chains whose blocks follow one another exactly;
and an operation for which such a sum does not fit in 64 bits fails. -/
theorem reads_exact_offsets (codecs : Codecs) (fs : Filesystem) :
    (∀ inodeRef inode, Asking.exec (fs.answers codecs) (fs.readInode inodeRef) = .ok inode →
      ∀ offset buf, ∀ q ∈ Stateful.asked (fs.answers codecs) (fs.readFile inode offset) buf,
        fs.AtPosition offset.toNat (min buf.length (inode.fileSize.toNat - offset.toNat)) fun i =>
          FullBlockRead inode i q
            (∃ e, (Stateful.exec (fs.answers codecs) (fs.readFile inode offset) buf).1 = fails e) ∨
          fs.FragmentRead inode q) ∧
    (∀ inodeRef, ReadsFrom (fs.answers codecs) (refStart fs.sb.inodeTableStart inodeRef)
      (fs.readInode inodeRef)) ∧
    (∀ inode, ReadsFrom (fs.answers codecs)
      (fs.sb.directoryTableStart.toNat + inode.dirStartBlock.toNat) (fs.readDir inode)) ∧
    (∀ table packed, ReadsFrom (fs.answers codecs) (refStart table.tableStart packed)
      (Xattr.readOolValue table packed)) ∧
    (∀ (table : XattrIdTable) i, ∀ q ∈ Asking.asked (fs.answers codecs) (Xattr.readSet table i),
      ∃ id, table.ids[i.toNat]? = some id ∧
        (ReadExactly (fs.answers codecs) (refStart table.tableStart id.xattrRef) q
            (∃ e, Asking.exec (fs.answers codecs) (Xattr.readSet table i) = fails e) ∨
          ∃ w target, Xattr.StreamAtRef (fs.answers codecs) table id.xattrRef
              (w ++ u64Bytes target) ∧
            ReadExactly (fs.answers codecs) (refStart table.tableStart target) q
              (∃ e, Asking.exec (fs.answers codecs) (Xattr.readSet table i) = fails e))) ∧
    ∀ abs next, Follows (fs.answers codecs) abs next →
      ∃ hdr, fs.dev.read abs 2 = .ok hdr ∧ next = abs + 2 + (u16le hdr &&& SIZE_MASK).toNat := by
  have hf := fs.tame_answers codecs
  have hlast : LastFails (fs.answers codecs) := lastFails_uncached codecs fs.dev fs.sb fs.comp
  refine ⟨?_, ?_, ?_, ?_, ?_, ?_⟩
  · intro inodeRef inode hread offset buf q hq
    exact readFile_asks hf (lastDataFails_answers codecs fs) (Inode.geometry_of_read hf hread) offset
      buf hq
  · exact fun inodeRef => readsFrom_read hlast fs.sb inodeRef
  · exact fun inode => readsFrom_readDir hlast fs inode
  · exact fun table packed => readsFrom_readOolValue hlast table packed
  · exact fun table i q hq => Xattr.readsFrom_readSet hf hlast i hq
  · exact fun abs next h => follows_exact h

/-- The block after the hole is read where the hole would have been, and the tail from the block of
its fragment. -/
theorem reads_exact_offsets_sample :
    let f := mixed.answers .none
    let asked := Stateful.asked f (mixed.readFile mixedFile 12286) (List.replicate 7 0)
    asked = [.data 4246 0x1001000 4096, .data 142 0x1000008 4096] ∧
      ∀ q ∈ asked, mixed.AtPosition 12286 7 fun i =>
        FullBlockRead mixedFile i q (∃ e,
          (Stateful.exec f (mixed.readFile mixedFile 12286) (List.replicate 7 0)).1 = fails e) ∨
        mixed.FragmentRead mixedFile q :=
  ⟨by decide +kernel, (reads_exact_offsets .none mixed).1 0 _ mixed_read 12286 (List.replicate 7 0)⟩

end Filesystem

end Squashfs
