import Squashfs.Addressing
import Squashfs.Foundation.Recorded
import Squashfs.Offsets
import Squashfs.Session

/-!
# What the caches hold and count

Model of the counters and capacities of both caches (`src/fs.rs:86-135`, 305-343;
`src/metablock.rs:79-138`). Each cache counts the look-ups it answers and those it does not, while
it is on. A change of capacity drops what it holds and starts the counts again.

**`caches_bounded`**: however sessions race and the capacities change, what a cache reports is what
its history comes to, and the bytes it holds are no more than its capacity times what a block may
be: 8 KiB of metadata, or the archive's block size. No request is for more than that (`Permitted`).

**`racing_misses`**: while a cache has room for all that the sessions ask of it, a block is put
through the codec no more often than readers were decoding it at one time, so once when they take
turns, and by each reader at most once.

Out of scope: what the maps of the `lru` package take for themselves.
-/

namespace Squashfs

open Foundation

/-! ## The counters -/

/-- A cache, off or a map, with how many look-ups it answered and how many not. -/
structure CacheInner (σ : Type) where
  lru : Option σ
  hits : UInt64
  misses : UInt64
  deriving Repr, DecidableEq

/-- Entries, capacity, hits and misses. -/
abbrev CacheStats := Nat × Nat × UInt64 × UInt64

namespace CacheInner

variable {κ ν σ : Type} (B : BoundedMap κ ν σ)

def new (capacity : Nat) : CacheInner σ := ⟨B.sized capacity, 0, 0⟩

/-- `set_capacity`: what was held is dropped, and the counters restart. -/
def setCapacity (_ : CacheInner σ) (capacity : Nat) : CacheInner σ := ⟨B.sized capacity, 0, 0⟩

/-- `get`: a cache that is off counts nothing. -/
def get (c : CacheInner σ) (k : κ) : Option ν × CacheInner σ :=
  match c.lru with
  | none => (none, c)
  | some lru =>
    match B.get lru k with
    | (some hit, lru) => (some hit, ⟨some lru, c.hits + 1, c.misses⟩)
    | (none, lru) => (none, ⟨some lru, c.hits, c.misses + 1⟩)

def insert (c : CacheInner σ) (k : κ) (block : ν) : CacheInner σ :=
  { c with lru := B.putOn c.lru k block }

variable {B}

def stats [DecidableEq κ] (R : B.Recency) (c : CacheInner σ) : CacheStats :=
  match c.lru with
  | some lru => ((R.keys lru).length, R.capacity lru, c.hits, c.misses)
  | none => (0, 0, c.hits, c.misses)

/-- What the blocks held weigh together. -/
def footprint [DecidableEq κ] (R : B.Recency) (size : ν → Nat) (c : CacheInner σ) : Nat :=
  c.lru.elim 0 (R.footprint size)

/-- The counters aside, a look-up is the map's. -/
theorem get_plain (c : CacheInner σ) (k : κ) :
    (get B c k).1 = (B.getOn c.lru k).1 ∧ (get B c k).2.lru = (B.getOn c.lru k).2 := by
  obtain ⟨_ | lru, hits, misses⟩ := c
  · exact ⟨rfl, rfl⟩
  · unfold get
    dsimp only [BoundedMap.getOn]
    rcases B.get lru k with ⟨_ | _, _⟩ <;> exact ⟨rfl, rfl⟩

end CacheInner

/-- Both caches of a mount. -/
structure MountCaches (σ τ : Type) where
  metaCache : CacheInner σ
  dataCache : CacheInner τ
  deriving Repr, DecidableEq

namespace MountCaches

variable {σ τ : Type} (M : BoundedMap Nat (Bytes × Nat) σ) (D : BoundedMap DataKey Bytes τ)

def new (metaBlocks dataBlocks : Nat) : MountCaches σ τ :=
  ⟨.new M metaBlocks, .new D dataBlocks⟩

def get (c : MountCaches σ τ) : (q : Req) → Option q.Value × MountCaches σ τ
  | .block abs => ((c.metaCache.get M abs).1, { c with metaCache := (c.metaCache.get M abs).2 })
  | .data abs sizeWord maxOut =>
    let key := (abs, sizeWord, maxOut)
    ((c.dataCache.get D key).1, { c with dataCache := (c.dataCache.get D key).2 })

def insert (c : MountCaches σ τ) : (q : Req) → q.Value → MountCaches σ τ
  | .block abs, block => { c with metaCache := c.metaCache.insert M abs block }
  | .data abs sizeWord maxOut, block =>
    { c with dataCache := c.dataCache.insert D (abs, sizeWord, maxOut) block }

def setCapacity (c : MountCaches σ τ) : SetCapacity → MountCaches σ τ
  | .metaCache blocks => { c with metaCache := c.metaCache.setCapacity M blocks }
  | .dataCache blocks => { c with dataCache := c.dataCache.setCapacity D blocks }

/-- The caches without their counters. -/
def plain (c : MountCaches σ τ) : Caches σ τ := ⟨c.metaCache.lru, c.dataCache.lru⟩

theorem get_plain (c : MountCaches σ τ) (q : Req) :
    ((c.get M D q).1, (c.get M D q).2.plain) = (cacheMemo M D).get c.plain q := by
  cases q with
  | block abs =>
    obtain ⟨hvalue, hlru⟩ := CacheInner.get_plain (B := M) c.metaCache abs
    exact Prod.ext hvalue (congrArg (fun lru => (⟨lru, c.dataCache.lru⟩ : Caches σ τ)) hlru)
  | data abs sizeWord maxOut =>
    obtain ⟨hvalue, hlru⟩ := CacheInner.get_plain (B := D) c.dataCache (abs, sizeWord, maxOut)
    exact Prod.ext hvalue (congrArg (fun lru => (⟨c.metaCache.lru, lru⟩ : Caches σ τ)) hlru)

theorem insert_plain (c : MountCaches σ τ) (q : Req) (block : q.Value) :
    (c.insert M D q block).plain = (cacheMemo M D).put c.plain q block := by
  cases q <;> rfl

theorem setCapacity_plain (c : MountCaches σ τ) (event : SetCapacity) :
    (c.setCapacity M D event).plain = (cacheMemo M D).admin c.plain event := by
  cases event <;> rfl

/-- The caches and their counters as one memory of the reader's requests. -/
def memo : Memo Req Req.Value SetCapacity (MountCaches σ τ) :=
  (cacheMemo M D).lift plain (get M D) (insert M D) (setCapacity M D) (get_plain M D)
    (insert_plain M D) (setCapacity_plain M D)

end MountCaches

/-! ## What is asked -/

/-- A data block is no longer than it was asked for. -/
theorem decodeDataBlock_le {codecs : Codecs} {dev : Device} {sb : Superblock} {comp : Compressor}
    (hlzo : ∀ input n out, codecs.lzo input n = some out → out.length ≤ n) {abs : Nat}
    {sizeWord : UInt32} {maxOut : Nat} {block : Bytes} (hmax : maxOut ≤ sb.blockSize.toNat)
    (h : decodeDataBlock codecs dev sb comp abs sizeWord maxOut = .ok block) :
    block.length ≤ sb.blockSize.toNat := by
  have hsmall := sb.blockSize_le
  unfold decodeDataBlock at h
  dsimp only at h
  split at h
  · cases h
  rename_i hdisk
  obtain ⟨raw, hraw, h⟩ := bind_eq_ok.mp h
  have hlen : raw.length ≤ sb.blockSize.toNat := dev.length_of_read hraw ▸ Nat.le_of_not_lt hdisk
  split at h
  · exact (decompress_le hlzo (by unfold isizeMax; omega) (by unfold isizeMax; omega) h).trans hmax
  · split at h
    · cases h
    · cases h
      exact hlen

/-- A request is for a metadata block, or for no more than `n` bytes of data. -/
def Permitted (n : Nat) : Req → Prop
  | .block _ => True
  | .data _ _ maxOut => maxOut ≤ n

section Asked

variable {f : ∀ q, Reply q} {n : Nat} {α : Type}

/-- Everything asked is permitted. -/
abbrev AsksPermitted (f : ∀ q, Reply q) (n : Nat) (m : Prog α) : Prop :=
  Asking.Within f (Permitted n) (fun _ => False) m

/-- The cursors of a reader that pulls any blocks. -/
abbrev Anywhere : MetaCursor → Prop := MetaCursor.NextIn fun _ => True

theorem permitted_of_blockIn {R : Nat → Prop} (q : Req) (h : BlockIn R q) : Permitted n q := by
  obtain ⟨abs, rfl, -⟩ := h
  trivial

theorem anywhere_next {abs next : Nat} (_ : True) (_ : Follows f abs next) : True := trivial

theorem confined_permitted {m : CurM α}
    (h : Stateful.Confined f Anywhere (BlockIn fun _ => True) (fun _ => False) m) :
    Stateful.Confined f Anywhere (Permitted n) (fun _ => False) m :=
  fun cur hcur => (h cur hcur).mono permitted_of_blockIn

theorem permitted_readBlock (abs : Nat) : AsksPermitted f n (readBlock abs) :=
  (MetaCursor.within_readBlock (R := fun _ => True) trivial).mono permitted_of_blockIn

theorem permitted_new (startAbs : Nat) (inBlock : UInt16) :
    AsksPermitted f n (MetaCursor.new startAbs inBlock) :=
  (within_new (R := fun _ => True) trivial inBlock).mono permitted_of_blockIn

theorem permitted_parseAt {m : CurM α} (startAbs : Nat) (inBlock : UInt16)
    (hm : Stateful.Confined f Anywhere (Permitted n) (fun _ => False) m) :
    AsksPermitted f n (parseAt startAbs inBlock m) :=
  Asking.within_bind (permitted_new startAbs inBlock) fun cur _ => (hm cur trivial).within_eval

theorem ExportTable.permitted_lookup (t : ExportTable) (inodeNumber : UInt32) :
    AsksPermitted f n (t.lookup inodeNumber) := by
  unfold ExportTable.lookup
  refine Asking.within_ite (fun _ => Asking.within_throw _) fun _ => Asking.within_bind
    (Asking.within_lift _) fun _ _ => Asking.within_bind (Asking.within_lift _) fun _ _ =>
    Asking.within_bind (Asking.within_lift _) fun start _ => Asking.within_bind
    (permitted_readBlock start.toNat) fun _ _ => Asking.within_bind (Asking.within_lift _)
    fun _ _ => Asking.within_ite (fun _ => Asking.within_throw _) fun _ => Asking.within_bind
    (Asking.within_lift _) fun _ _ => Asking.within_lift _

namespace Xattr

open MetaCursor

theorem permitted_readOolValue (table : XattrIdTable) (packed : UInt64) :
    AsksPermitted f n (readOolValue table packed) :=
  permitted_parseAt _ _ (confined_permitted (confined_readSized anywhere_next _))

theorem confined_anyPair (table : XattrIdTable) :
    Stateful.Confined f Anywhere (Permitted n) (fun _ => False) (readPair table) := by
  have hvalue : ∀ rawType,
      Stateful.Confined f Anywhere (Permitted n) (fun _ => False) (readValue table rawType) := by
    intro rawType
    refine Stateful.confined_ite (fun _ => Stateful.confined_bind
      (confined_permitted (confined_readU32 anywhere_next)) fun _ => Stateful.confined_ite
      (fun _ => Stateful.confined_throw _) fun _ => Stateful.confined_bind
      (confined_permitted (confined_readU64 anywhere_next)) fun target => ?_) fun _ =>
      confined_permitted (confined_readSized anywhere_next _)
    exact fun cur hcur => Stateful.confinedAt_ofAsking hcur (permitted_readOolValue table target)
  unfold readPair
  refine Stateful.confined_bind (confined_permitted (confined_readU16 anywhere_next)) fun rawType =>
    Stateful.confined_bind (confined_permitted (confined_readU16 anywhere_next)) fun _ =>
    Stateful.confined_ite (fun _ => Stateful.confined_throw _) fun _ => Stateful.confined_bind
    (confined_permitted (confined_readExact anywhere_next _)) fun _ => Stateful.confined_bind
    (Stateful.confined_lift _) fun _ => ?_
  exact Stateful.confined_bind (hvalue rawType) fun _ => Stateful.confined_pure _

theorem confined_anyPairs (table : XattrIdTable) (size : UInt32) (count : Nat)
    (out : List XattrEntry) (total : Nat) :
    Stateful.Confined f Anywhere (Permitted n) (fun _ => False)
      (readPairs table size count out total) := by
  induction count generalizing out total with
  | zero =>
    exact Stateful.confined_ite (fun _ => Stateful.confined_throw _)
      fun _ => Stateful.confined_pure _
  | succ count ih =>
    refine Stateful.confined_bind (confined_anyPair table) fun _ => Stateful.confined_bind
      (Stateful.confined_lift _) fun _ => ?_
    exact Stateful.confined_ite (fun _ => Stateful.confined_throw _) fun _ => ih _ _

theorem permitted_readSet (table : XattrIdTable) (i : UInt32) :
    AsksPermitted f n (readSet table i) :=
  Asking.within_bind (Asking.within_lift _) fun _ _ => Asking.within_ite
    (fun _ => Asking.within_throw _) fun _ =>
    permitted_parseAt _ _ (confined_anyPairs table _ _ _ _)

end Xattr

namespace Filesystem

variable {fs : Filesystem} {inode : Inode}

theorem permitted_readInode (inodeRef : UInt64) : AsksPermitted f n (fs.readInode inodeRef) :=
  permitted_parseAt _ _ (confined_permitted (MetaCursor.confined_readBody anywhere_next _))

theorem permitted_readInodeByNumber (inodeNumber : UInt32) :
    AsksPermitted f n (fs.readInodeByNumber inodeNumber) := by
  refine Asking.within_bind ?_ fun inodeRef _ => permitted_readInode inodeRef
  unfold inodeRefForNumber
  split
  · exact Asking.within_throw _
  · exact ExportTable.permitted_lookup _ inodeNumber

theorem permitted_readDir (inode : Inode) : AsksPermitted f n (fs.readDir inode) := by
  unfold readDir
  refine Asking.within_ite (fun _ => Asking.within_throw _) fun _ => Asking.within_ite
    (fun _ => Asking.within_pure _) fun _ => Asking.within_bind ?_ fun _ _ => Asking.within_lift _
  refine Asking.within_bind (permitted_new _ _) fun cur _ => ?_
  have hread := confined_permitted (n := n)
    (MetaCursor.confined_readExact (f := f) anywhere_next inode.dirListingLen)
  exact (hread (cur.withLimit fs.dirTableEnd PAST_TABLE_END) trivial).within_eval

theorem permitted_walk (node : Inode) (comps : List Bytes) :
    AsksPermitted f n (fs.walk node comps) := by
  induction comps generalizing node with
  | nil => exact Asking.within_pure _
  | cons comp comps ih =>
    refine Asking.within_ite (fun _ => Asking.within_throw _) fun _ => Asking.within_bind ?_
      fun next _ => ih next
    unfold lookup
    refine Asking.within_bind (permitted_readDir node) fun entries _ => ?_
    split
    · exact permitted_readInode _
    · exact Asking.within_throw _

theorem permitted_lookupPathBytes (path : Bytes) : AsksPermitted f n (fs.lookupPathBytes path) :=
  Asking.within_bind (permitted_readInode _) fun root _ => permitted_walk root _

theorem permitted_listXattrs (inode : Inode) : AsksPermitted f n (fs.listXattrs inode) := by
  unfold listXattrs
  split
  · exact Asking.within_pure _
  · exact Asking.within_ite (fun _ => Asking.within_pure _) fun _ => Xattr.permitted_readSet _ _

/-- **A data block is asked for within the archive's block size**, whatever the inode says. -/
theorem permitted_readLogicalBlock (i : Nat) (offsets : List Nat) :
    AsksPermitted f fs.sb.blockSize.toNat (fs.readLogicalBlock inode i offsets) := by
  have hdata : ∀ absOff sizeWord maxOut, maxOut ≤ fs.sb.blockSize.toNat →
      AsksPermitted f fs.sb.blockSize.toNat (readDataBlock absOff sizeWord maxOut) := by
    intro absOff sizeWord maxOut hmax q hq
    obtain rfl := List.mem_singleton.mp hq
    exact .inl hmax
  refine Asking.within_ite (fun _ => ?_) fun _ => Asking.within_ite (fun _ => ?_) fun _ =>
    Asking.within_throw _
  · unfold readFullBlock
    refine Asking.within_bind (Asking.within_lift _) fun _ _ => Asking.within_bind
      (Asking.within_lift _) fun _ _ => Asking.within_bind (Asking.within_lift _) fun _ _ =>
      Asking.within_ite (fun _ => Asking.within_pure _) fun _ => Asking.within_bind
      (Asking.within_lift _) fun _ _ => Asking.within_bind
      (hdata _ _ _ (Nat.min_le_left _ _)) fun _ _ => ?_
    exact Asking.within_ite (fun _ => Asking.within_throw _) fun _ => Asking.within_pure _
  · unfold readFragmentTail
    refine Asking.within_bind (Asking.within_lift _) fun _ _ => Asking.within_bind
      (hdata _ _ _ (Nat.le_refl _)) fun _ _ => Asking.within_bind (Asking.within_lift _)
      fun _ _ => Asking.within_bind (Asking.within_lift _) fun _ _ => Asking.within_bind
      (Asking.within_lift _) fun _ _ => ?_
    exact Asking.within_ite (fun _ => Asking.within_throw _) fun _ => Asking.within_pure _

theorem confined_anyLoop (offsets : List Nat) (offset toRead turns written : Nat) :
    Stateful.Confined f (fun _ => True) (Permitted fs.sb.blockSize.toNat) (fun _ => False)
      (fs.readLoop inode offsets offset toRead turns written) := by
  induction turns generalizing written with
  | zero =>
    exact Stateful.confined_ite (fun _ => Stateful.confined_throw _)
      fun _ => Stateful.confined_pure _
  | succ turns ih =>
    refine Stateful.confined_ite (fun _ => Stateful.confined_bind ?_ fun written' => ih written')
      fun _ => Stateful.confined_pure _
    intro buf _
    unfold readChunk
    refine Stateful.confinedAt_lift_bind trivial fun _ _ => Stateful.confinedAt_lift_bind trivial
      fun _ _ => Stateful.confinedAt_lift_bind trivial fun _ _ =>
      Stateful.confinedAt_ofAsking_bind trivial (permitted_readLogicalBlock _ _) fun _ _ =>
      Stateful.confinedAt_lift_bind trivial fun _ _ => Stateful.confinedAt_ite
      (fun _ => Stateful.confinedAt_throw _) fun _ => Stateful.confinedAt_lift_bind trivial
      fun _ _ => Stateful.confinedAt_get_bind trivial (Stateful.confinedAt_lift_bind trivial
      fun _ _ => Stateful.confinedAt_bind (Stateful.confinedAt_set trivial) fun _ _ _ _ =>
      Stateful.confinedAt_lift trivial _)

theorem confined_anyRead (inode : Inode) (offset : UInt64) :
    Stateful.Confined f (fun _ => True) (Permitted fs.sb.blockSize.toNat) (fun _ => False)
      (fs.readFile inode offset) := by
  intro buf _
  unfold readFile readFileWithOffsets
  refine Stateful.confinedAt_ite (fun _ => Stateful.confinedAt_throw _) fun _ =>
    Stateful.confinedAt_get_bind trivial (Stateful.confinedAt_ite
    (fun _ => Stateful.confinedAt_pure trivial _) fun _ =>
    Stateful.confinedAt_lift_bind trivial fun _ _ => ?_)
  exact confined_anyLoop _ _ _ _ 0 buf trivial

theorem asked_map {β : Type} (g : α → β) (p : SessionM α) : (g <$> p).asked f = p.asked f := by
  rw [← bind_pure_comp, Query.asked_bind]
  exact List.append_nil _

theorem permitted_map {β : Type} {m : Prog α} (g : Res α → β) (h : AsksPermitted f n m) :
    ∀ q ∈ (g <$> m.run).asked f, Permitted n q := by
  rw [asked_map]
  exact fun q hq => (h q hq).resolve_right And.left

/-- **A call asks for what is permitted**, whatever inodes it is made on. -/
theorem permitted_perform (known : List Inode) (call : Call) :
    ∀ q ∈ (fs.perform known call).asked f, Permitted fs.sb.blockSize.toNat q := by
  have honInode : ∀ (i : Nat) (m : Inode → SessionM Answer),
      (∀ inode, ∀ q ∈ (m inode).asked f, Permitted fs.sb.blockSize.toNat q) →
        ∀ q ∈ (onInode known i m).asked f, Permitted fs.sb.blockSize.toNat q := by
    intro i m hm
    unfold onInode
    split
    · exact hm _
    · exact fun q hq => absurd hq List.not_mem_nil
  cases call with
  | rootInode => exact permitted_map _ (permitted_readInode _)
  | readInode inodeRef => exact permitted_map _ (permitted_readInode inodeRef)
  | readInodeByNumber inodeNumber => exact permitted_map _ (permitted_readInodeByNumber inodeNumber)
  | lookupPathBytes path => exact permitted_map _ (permitted_lookupPathBytes path)
  | readDir i => exact honInode i _ fun inode => permitted_map _ (permitted_readDir inode)
  | listXattrs i => exact honInode i _ fun inode => permitted_map _ (permitted_listXattrs inode)
  | getXattr i name =>
    refine honInode i _ fun inode => permitted_map _ ?_
    exact Asking.within_bind (permitted_listXattrs inode) fun _ _ => Asking.within_pure _
  | readFile i offset buf =>
    refine honInode i _ fun inode => ?_
    rw [asked_map]
    exact fun q hq => ((confined_anyRead inode offset buf trivial).asks q hq).resolve_right And.left

theorem permitted_session (known : List Inode) (calls : List Call) :
    ∀ q ∈ (fs.session known calls).asked f, Permitted fs.sb.blockSize.toNat q := by
  induction calls generalizing known with
  | nil => exact fun q hq => absurd hq List.not_mem_nil
  | cons call calls ih =>
    unfold session
    intro q hq
    rw [Query.asked_bind, Query.asked_bind, List.mem_append, List.mem_append] at hq
    rcases hq with hq | hq | hq
    · exact permitted_perform known call q hq
    · exact ih _ q hq
    · exact absurd hq List.not_mem_nil

end Filesystem

end Asked

/-! ## The books of a cache -/

/-- What was done to one cache. -/
inductive CacheDeed where
  | looked (hit : Bool)
  | sized (blocks : Nat)
  deriving Repr, DecidableEq

namespace CacheDeed

/-- The capacity set last, or the one the cache was made with. Deeds are listed latest first. -/
def capacity (initial : Nat) : List CacheDeed → Nat
  | [] => initial
  | .sized blocks :: _ => blocks
  | .looked _ :: deeds => capacity initial deeds

/-- How many look-ups since then were answered, or not. -/
def count (answered : Bool) : List CacheDeed → Nat
  | .looked hit :: deeds => (if hit = answered then 1 else 0) + count answered deeds
  | _ => 0

/-- What a deed did to the metadata cache. -/
def onMeta : Deed Req SetCapacity → Option CacheDeed
  | .looked (.block _) hit => some (.looked hit)
  | .administered (.metaCache blocks) => some (.sized blocks)
  | _ => none

/-- What a deed did to the data cache. -/
def onData : Deed Req SetCapacity → Option CacheDeed
  | .looked (.data _ _ _) hit => some (.looked hit)
  | .administered (.dataCache blocks) => some (.sized blocks)
  | _ => none

end CacheDeed

namespace CacheInner

variable {κ ν σ : Type} [DecidableEq κ] {B : BoundedMap κ ν σ} (R : B.Recency) {P : κ → Prop}
  {initial : Nat} {deeds : List CacheDeed} {c : CacheInner σ} {k : κ}

/-- The cache is what its history comes to: off and without counts at capacity zero, else a map
that keeps to the capacity, with the look-ups since it was set. -/
structure Booked (P : κ → Prop) (initial : Nat) (deeds : List CacheDeed) (c : CacheInner σ) :
    Prop where
  off : CacheDeed.capacity initial deeds = 0 → c = ⟨none, 0, 0⟩
  on : CacheDeed.capacity initial deeds ≠ 0 → ∃ lru,
    c = ⟨some lru, .ofNat (CacheDeed.count true deeds), .ofNat (CacheDeed.count false deeds)⟩ ∧
      R.capacity lru = CacheDeed.capacity initial deeds ∧ R.Kept P lru

variable {R}

theorem booked_sized {blocks : Nat} (hcap : CacheDeed.capacity initial deeds = blocks)
    (hcount : ∀ answered, CacheDeed.count answered deeds = 0) :
    Booked R P initial deeds ⟨B.sized blocks, 0, 0⟩ := by
  subst hcap
  unfold BoundedMap.sized
  refine ⟨fun h => by rw [if_pos h], fun h => ⟨_, ?_, R.capacity_new _, R.kept_new P _⟩⟩
  rw [if_neg h, hcount, hcount]
  rfl

theorem Booked.get (h : Booked R P initial deeds c) (k : κ) :
    Booked R P initial (.looked (c.get B k).1.isSome :: deeds) (c.get B k).2 where
  off hzero := by
    obtain rfl := h.off hzero
    rfl
  on hcap := by
    obtain ⟨lru, rfl, hlru, hkept⟩ := h.on hcap
    have hget := hkept.get k
    have hsame := (R.capacity_get lru k).trans hlru
    unfold CacheInner.get
    dsimp only
    rcases hg : B.get lru k with ⟨_ | v, lru'⟩
    · rw [hg] at hget hsame
      refine ⟨lru', ?_, hsame, hget⟩
      simp [CacheDeed.count, Nat.add_comm 1]
    · rw [hg] at hget hsame
      refine ⟨lru', ?_, hsame, hget⟩
      simp [CacheDeed.count, Nat.add_comm 1]

theorem Booked.insert (h : Booked R P initial deeds c) (hk : P k) (block : ν) :
    Booked R P initial deeds (c.insert B k block) where
  off hzero := by
    obtain rfl := h.off hzero
    rfl
  on hcap := by
    obtain ⟨lru, rfl, hlru, hkept⟩ := h.on hcap
    exact ⟨_, rfl, (R.capacity_put lru k block).trans hlru, hkept.put hk block⟩

/-- What a cache reports is what its history comes to. -/
def Reports (initial : Nat) (deeds : List CacheDeed) (stats : CacheStats) : Prop :=
  if CacheDeed.capacity initial deeds = 0 then stats = (0, 0, 0, 0)
  else ∃ entries ≤ CacheDeed.capacity initial deeds,
    stats = (entries, CacheDeed.capacity initial deeds, .ofNat (CacheDeed.count true deeds),
      .ofNat (CacheDeed.count false deeds))

theorem Booked.reports (h : Booked R P initial deeds c) : Reports initial deeds (c.stats R) := by
  unfold Reports
  split
  · rename_i hzero
    rw [h.off hzero]
    rfl
  · rename_i hcap
    obtain ⟨lru, rfl, hlru, hkept⟩ := h.on hcap
    exact ⟨_, hlru ▸ hkept.length_le, by rw [← hlru]; rfl⟩

theorem Booked.footprint_le {size : ν → Nat} {bound : Nat} (h : Booked R P initial deeds c)
    (hsize : ∀ k v, P k → B.HoldsOn c.lru k v → size v ≤ bound) :
    c.footprint R size ≤ CacheDeed.capacity initial deeds * bound := by
  by_cases hzero : CacheDeed.capacity initial deeds = 0
  · rw [h.off hzero]
    exact Nat.zero_le _
  · obtain ⟨lru, rfl, hlru, hkept⟩ := h.on hzero
    rw [← hlru]
    exact hkept.footprint_le fun k v hk hv => hsize k v hk ⟨lru, rfl, hv⟩

end CacheInner

/-! ## Racing sessions -/

namespace MountCaches

variable {σ τ : Type} {M : BoundedMap Nat (Bytes × Nat) σ} {D : BoundedMap DataKey Bytes τ}
  (RM : M.Recency) (RD : D.Recency) {metaBlocks dataBlocks n : Nat} {f : ∀ q, Reply q}

/-- The caches with the history of what was done to them. -/
abbrev History (σ τ : Type) := MountCaches σ τ × List (Deed Req SetCapacity)

/-- Both caches are what their histories come to, and no data block is kept for more than `n`
bytes. -/
structure Books (metaBlocks dataBlocks n : Nat) (s : History σ τ) : Prop where
  metaCache : s.1.metaCache.Booked RM (fun _ => True) metaBlocks
    (s.2.filterMap CacheDeed.onMeta)
  dataCache : s.1.dataCache.Booked RD (fun key => key.2.2 ≤ n) dataBlocks
    (s.2.filterMap CacheDeed.onData)

variable {RM RD}

theorem books_new : Books RM RD metaBlocks dataBlocks n (.new M D metaBlocks dataBlocks, []) :=
  ⟨CacheInner.booked_sized rfl fun _ => rfl, CacheInner.booked_sized rfl fun _ => rfl⟩

/-- **The books are kept** under permitted requests, and while the capacities change. -/
theorem keeps_books : (memo M D).recorded.Keeps f (Permitted n)
    (Books RM RD metaBlocks dataBlocks n) where
  get {s q} h _ := by
    cases q with
    | block abs => exact ⟨h.metaCache.get abs, h.dataCache⟩
    | data abs sizeWord maxOut => exact ⟨h.metaCache, h.dataCache.get (abs, sizeWord, maxOut)⟩
  put {s q v} h hq _ := by
    cases q with
    | block abs => exact ⟨h.metaCache.insert trivial v, h.dataCache⟩
    | data abs sizeWord maxOut =>
      exact ⟨h.metaCache, h.dataCache.insert (k := (abs, sizeWord, maxOut)) hq v⟩
  admin {s} event h := by
    cases event with
    | metaCache blocks => exact ⟨CacheInner.booked_sized rfl fun _ => rfl, h.dataCache⟩
    | dataCache blocks => exact ⟨h.metaCache, CacheInner.booked_sized rfl fun _ => rfl⟩

end MountCaches

namespace Filesystem

variable {σ τ ι : Type} [DecidableEq ι] (M : BoundedMap Nat (Bytes × Nat) σ)
  (D : BoundedMap DataKey Bytes τ)

/-- Sessions over one image, and its caches with their counters and history. -/
abbrev CountedReaders (σ τ ι : Type) :=
  World Req.Value Error (List Answer) (MountCaches.History σ τ) ι

/-- The readers about to start, over caches just made. -/
def countedStart (fs : Filesystem) (metaBlocks dataBlocks : Nat) (calls : ι → List Call) :
    CountedReaders σ τ ι :=
  ⟨(.new M D metaBlocks dataBlocks, []), fun i => .start (fs.session [] (calls i))⟩

variable {M D}

/-- **The caches report what happened, and hold no more than they may.** However the look-ups,
decodes and insertions of racing sessions interleave and the capacities change: a cache reports the
capacity set last, no more entries than that, and the look-ups since then that it answered and that
it did not, and when it is off nothing at all; and what it holds is at most its capacity in blocks
of 8 KiB, or of the archive's block size. -/
theorem caches_bounded (RM : M.Recency) (RD : D.Recency) (codecs : Codecs)
    (hlzo : ∀ input n out, codecs.lzo input n = some out → out.length ≤ n) (fs : Filesystem)
    (metaBlocks dataBlocks : Nat) (calls : ι → List Call) {w : CountedReaders σ τ ι}
    (hrun : Relation.ReflTransGen (Step (MountCaches.memo M D).recorded (fs.answers codecs))
      (fs.countedStart M D metaBlocks dataBlocks calls) w) :
    let metaDeeds := w.memory.2.filterMap CacheDeed.onMeta
    let dataDeeds := w.memory.2.filterMap CacheDeed.onData
    CacheInner.Reports metaBlocks metaDeeds (w.memory.1.metaCache.stats RM) ∧
      CacheInner.Reports dataBlocks dataDeeds (w.memory.1.dataCache.stats RD) ∧
      w.memory.1.metaCache.footprint RM (·.1.length) ≤
        CacheDeed.capacity metaBlocks metaDeeds * METADATA_SIZE ∧
      w.memory.1.dataCache.footprint RD List.length ≤
        CacheDeed.capacity dataBlocks dataDeeds * fs.sb.blockSize.toNat := by
  have hsound : Sound (MountCaches.memo M D).recorded (fs.answers codecs)
      (.new M D metaBlocks dataBlocks, []) := sound_new M D _ metaBlocks dataBlocks
  have hnew : MountCaches.Books RM RD metaBlocks dataBlocks fs.sb.blockSize.toNat
      (.new M D metaBlocks dataBlocks, []) := MountCaches.books_new
  obtain ⟨hinv, hwithin⟩ := World.memory_keeps MountCaches.keeps_books hsound hnew _
    (fun i => permitted_session [] (calls i)) hrun
  have hbooks := hwithin.memory
  refine ⟨hbooks.metaCache.reports, hbooks.dataCache.reports,
    hbooks.metaCache.footprint_le fun abs block _ hheld => ?_,
    hbooks.dataCache.footprint_le fun key block hmax hheld => ?_⟩
  · have hread : fs.answers codecs (.block abs) = .ok block := hinv.sound (.block abs) block hheld
    exact readBlockUncached_le hlzo hread
  · have hread : fs.answers codecs (.data key.1 key.2.1 key.2.2) = .ok block :=
      hinv.sound (.data key.1 key.2.1 key.2.2) block hheld
    exact decodeDataBlock_le hlzo hmax hread

/-- The sample's file found and read in two chunks, through caches of two blocks and of one. -/
theorem caches_bounded_sample :
    ∃ w : CountedReaders (BoundedMap.Lru Nat (Bytes × Nat)) (BoundedMap.Lru DataKey Bytes) Unit,
      w.memory.1.metaCache.stats (BoundedMap.lruRecency Nat (Bytes × Nat)) = (2, 2, 1, 2) ∧
      w.memory.1.dataCache.stats (BoundedMap.lruRecency DataKey Bytes) = (1, 1, 1, 1) ∧
      w.memory.1.dataCache.footprint (BoundedMap.lruRecency DataKey Bytes) List.length ≤
        CacheDeed.capacity 1 (w.memory.2.filterMap CacheDeed.onData) *
          sample.sb.blockSize.toNat := by
  let M := BoundedMap.lru Nat (Bytes × Nat)
  let D := BoundedMap.lru DataKey Bytes
  let calls : Unit → List Call := fun _ =>
    [.lookupPathBytes [0x61], .readFile 0 0 [0, 0], .readFile 0 2 [0]]
  obtain ⟨w, hrun, hmemory, -⟩ := serve_steps (M := (MountCaches.memo M D).recorded)
    (f := sample.answers .none) (sample.session [] (calls ()))
    (w := sample.countedStart M D 2 1 calls) (i := ()) rfl
  have hbounded := caches_bounded (BoundedMap.lruRecency _ _) (BoundedMap.lruRecency _ _) .none
    (fun _ _ _ h => by cases h) sample 2 1 calls hrun
  refine ⟨w, ?_, ?_, hbounded.2.2.2⟩
  · rw [hmemory]
    decide +kernel
  · rw [hmemory]
    decide +kernel

end Filesystem

/-! ## Caches with room -/

namespace CacheInner

variable {κ ν σ : Type} [DecidableEq κ] {B : BoundedMap κ ν σ} {R : B.Recency} {K : Finset κ}
  {c : CacheInner σ} {k k' : κ}

/-- The cache is asked for keys in `K` only and has room for them all. -/
def Room (R : B.Recency) (K : Finset κ) (c : CacheInner σ) : Prop :=
  K.Nonempty → ∃ lru, c.lru = some lru ∧ R.Kept (· ∈ K) lru ∧ K.card ≤ R.capacity lru

theorem room_new {blocks : Nat} (h : K.card ≤ blocks) : Room R K (new B blocks) := by
  intro hK
  have hpos : blocks ≠ 0 := Nat.ne_of_gt (hK.card_pos.trans_le h)
  unfold new BoundedMap.sized
  rw [if_neg hpos]
  exact ⟨_, rfl, R.kept_new _ _, by rwa [R.capacity_new]⟩

theorem isSome_get : (c.get B k).1.isSome ↔ ∃ lru, c.lru = some lru ∧ k ∈ R.keys lru := by
  rw [(get_plain c k).1]
  rcases c.lru with _ | lru
  · refine iff_of_false Bool.false_ne_true ?_
    rintro ⟨_, h, _⟩
    cases h
  · refine (R.isSome_get lru k).trans ⟨fun hk => ⟨lru, rfl, hk⟩, ?_⟩
    rintro ⟨_, h, hk⟩
    cases h
    exact hk

theorem Room.lru_get (h : Room R K c) (hk : k ∈ K) :
    ∃ lru, c.lru = some lru ∧ R.Kept (· ∈ K) lru ∧ K.card ≤ R.capacity lru ∧
      (c.get B k).2.lru = some (B.get lru k).2 := by
  obtain ⟨lru, hlru, hkept, hroom⟩ := h ⟨k, hk⟩
  refine ⟨lru, hlru, hkept, hroom, ?_⟩
  rw [(get_plain c k).2, hlru]
  rfl

theorem Room.get (h : Room R K c) (hk : k ∈ K) : Room R K (c.get B k).2 := fun _ => by
  obtain ⟨lru, -, hkept, hroom, hget⟩ := h.lru_get hk
  exact ⟨_, hget, hkept.get k, by rwa [R.capacity_get]⟩

theorem Room.insert (h : Room R K c) (hk : k ∈ K) (block : ν) :
    Room R K (c.insert B k block) := fun hK => by
  obtain ⟨lru, hlru, hkept, hroom⟩ := h hK
  refine ⟨B.put lru k block, ?_, hkept.put hk block, by rwa [R.capacity_put]⟩
  unfold CacheInner.insert BoundedMap.putOn
  rw [hlru]
  rfl

/-- A look-up drops nothing. -/
theorem Room.isSome_after_get (h : Room R K c) (hk : k ∈ K) (hsome : (c.get B k').1.isSome) :
    ((c.get B k).2.get B k').1.isSome := by
  obtain ⟨lru, hlru, hkept, -, hget⟩ := h.lru_get hk
  obtain ⟨lru', hlru', hmem⟩ := (isSome_get (R := R)).mp hsome
  obtain rfl := Option.some.inj (hlru'.symm.trans hlru)
  exact isSome_get.mpr ⟨_, hget, (R.keys_get hkept.nodup k).mem_iff.mpr hmem⟩

/-- What is stored is there, with all that was. -/
theorem Room.isSome_after_insert (h : Room R K c) (hk : k ∈ K) (block : ν)
    (hsome : k' = k ∨ (c.get B k').1.isSome) : ((c.insert B k block).get B k').1.isSome := by
  obtain ⟨lru, hlru, hkept, hroom⟩ := h ⟨k, hk⟩
  have hput : (c.insert B k block).lru = some (B.put lru k block) := by
    unfold CacheInner.insert BoundedMap.putOn
    rw [hlru]
    rfl
  refine isSome_get.mpr ⟨_, hput, (hkept.mem_keys_put hroom hk block).mpr (hsome.imp id ?_)⟩
  intro hsome
  obtain ⟨lru', hlru', hmem⟩ := (isSome_get (R := R)).mp hsome
  obtain rfl := Option.some.inj (hlru'.symm.trans hlru)
  exact hmem

end CacheInner

/-- The metadata block a request is for. -/
def Req.block? : Req → Option Nat
  | .block abs => some abs
  | .data _ _ _ => none

/-- The data block a request is for. -/
def Req.data? : Req → Option DataKey
  | .block _ => none
  | .data abs sizeWord maxOut => some (abs, sizeWord, maxOut)

namespace MountCaches

variable {σ τ : Type} {M : BoundedMap Nat (Bytes × Nat) σ} {D : BoundedMap DataKey Bytes τ}
  {RM : M.Recency} {RD : D.Recency} {f : ∀ q, Reply q}

/-- A metadata cache with room for the blocks in `K` keeps them. -/
theorem roomy_meta (K : Finset Nat) :
    (memo M D).Roomy (fun q => ∀ abs, q.block? = some abs → abs ∈ K) (·.block?.isSome)
      (·.metaCache.Room RM K) where
  get {s q q'} hroom hq hkeep hsome := by
    cases q' with
    | data => cases hkeep
    | block abs' =>
      cases q with
      | block abs => exact hroom.isSome_after_get (hq abs rfl) hsome
      | data => exact hsome
  put {s q q'} v hroom hq hkeep hsome := by
    cases q' with
    | data => cases hkeep
    | block abs' =>
      cases q with
      | block abs =>
        exact hroom.isSome_after_insert (hq abs rfl) v (hsome.imp_left Req.block.inj)
      | data => exact hsome.resolve_left nofun

theorem keeps_meta (K : Finset Nat) :
    (memo M D).recorded.frozen.Keeps f (fun q => ∀ abs, q.block? = some abs → abs ∈ K)
      (·.1.metaCache.Room RM K) where
  get {s q} hroom hq := by
    cases q with
    | block abs => exact hroom.get (hq abs rfl)
    | data => exact hroom
  put {s q v} hroom hq _ := by
    cases q with
    | block abs => exact hroom.insert (hq abs rfl) v
    | data => exact hroom
  admin e := e.elim

/-- A data cache with room for the blocks in `K` keeps them. -/
theorem roomy_data (K : Finset DataKey) :
    (memo M D).Roomy (fun q => ∀ key, q.data? = some key → key ∈ K) (·.data?.isSome)
      (·.dataCache.Room RD K) where
  get {s q q'} hroom hq hkeep hsome := by
    cases q' with
    | block => cases hkeep
    | data abs' sizeWord' maxOut' =>
      cases q with
      | block => exact hsome
      | data abs sizeWord maxOut => exact hroom.isSome_after_get (hq _ rfl) hsome
  put {s q q'} v hroom hq hkeep hsome := by
    cases q' with
    | block => cases hkeep
    | data abs' sizeWord' maxOut' =>
      cases q with
      | block => exact hsome.resolve_left nofun
      | data abs sizeWord maxOut =>
        refine hroom.isSome_after_insert (hq _ rfl) v (hsome.imp_left fun h => ?_)
        cases h
        rfl

theorem keeps_data (K : Finset DataKey) :
    (memo M D).recorded.frozen.Keeps f (fun q => ∀ key, q.data? = some key → key ∈ K)
      (·.1.dataCache.Room RD K) where
  get {s q} hroom hq := by
    cases q with
    | block => exact hroom
    | data abs sizeWord maxOut => exact hroom.get (hq _ rfl)
  put {s q v} hroom hq _ := by
    cases q with
    | block => exact hroom
    | data abs sizeWord maxOut => exact hroom.insert (hq _ rfl) v
  admin e := e.elim

end MountCaches

namespace Filesystem

variable {σ τ ι : Type} [DecidableEq ι] [Fintype ι] {M : BoundedMap Nat (Bytes × Nat) σ}
  {D : BoundedMap DataKey Bytes τ}

/-- The metadata blocks that the sessions ask for. -/
def metaAsked (f : ∀ q, Reply q) (fs : Filesystem) (calls : ι → List Call) : Finset Nat :=
  Finset.univ.biUnion fun i =>
    (((fs.session [] (calls i)).asked f).filterMap Req.block?).toFinset

/-- The data blocks that the sessions ask for. -/
def dataAsked (f : ∀ q, Reply q) (fs : Filesystem) (calls : ι → List Call) : Finset DataKey :=
  Finset.univ.biUnion fun i =>
    (((fs.session [] (calls i)).asked f).filterMap Req.data?).toFinset

/-- The cache a request goes to has room for all that the sessions ask of it. -/
def HasRoom (f : ∀ q, Reply q) (fs : Filesystem) (calls : ι → List Call)
    (metaBlocks dataBlocks : Nat) : Req → Prop
  | .block _ => (fs.metaAsked f calls).card ≤ metaBlocks
  | .data _ _ _ => (fs.dataAsked f calls).card ≤ dataBlocks

/-- A block that decodes is decoded no more often than `n` readers at one time do it. -/
theorem misses_le {f : ∀ q, Reply q} (RM : M.Recency) (RD : D.Recency) {fs : Filesystem}
    {metaBlocks dataBlocks n : Nat} {calls : ι → List Call} {q : Req}
    (hroom : fs.HasRoom f calls metaBlocks dataBlocks q) (hq : ∃ block, f q = .ok block)
    {w : CountedReaders σ τ ι}
    (hrun : Relation.ReflTransGen
      (fun w w' => Step (MountCaches.memo M D).recorded.frozen f w w' ∧ w'.pending q ≤ n)
      (fs.countedStart M D metaBlocks dataBlocks calls) w) :
    misses q w.memory.2 ≤ n := by
  have hsound : Sound (MountCaches.memo M D) f (.new M D metaBlocks dataBlocks) :=
    sound_new M D _ metaBlocks dataBlocks
  cases q with
  | block abs =>
    have hkeeps : (MountCaches.memo M D).recorded.frozen.Keeps f
        (fun q => ∀ abs, q.block? = some abs → abs ∈ fs.metaAsked f calls)
        (·.1.metaCache.Room RM (fs.metaAsked f calls)) := MountCaches.keeps_meta _
    refine World.misses_le hkeeps (MountCaches.roomy_meta _) rfl hq
      (CacheInner.room_new hroom) hsound _ (fun i q' hq' abs' habs' => ?_) hrun
    refine Finset.mem_biUnion.mpr ⟨i, Finset.mem_univ i, List.mem_toFinset.mpr ?_⟩
    exact List.mem_filterMap.mpr ⟨q', hq', habs'⟩
  | data abs sizeWord maxOut =>
    have hkeeps : (MountCaches.memo M D).recorded.frozen.Keeps f
        (fun q => ∀ key, q.data? = some key → key ∈ fs.dataAsked f calls)
        (·.1.dataCache.Room RD (fs.dataAsked f calls)) := MountCaches.keeps_data _
    refine World.misses_le hkeeps (MountCaches.roomy_data _) rfl hq
      (CacheInner.room_new hroom) hsound _ (fun i q' hq' key hkey => ?_) hrun
    refine Finset.mem_biUnion.mpr ⟨i, Finset.mem_univ i, List.mem_toFinset.mpr ?_⟩
    exact List.mem_filterMap.mpr ⟨q', hq', hkey⟩

/-- **Racing readers decode a block no more often than they do it at one time.** While its cache
has room for all that the sessions ask of it and nobody resizes it, a block that decodes is missed
by each of the readers at most once; and if no more than `n` of them were ever decoding it at the
same moment, `n` times, so that readers who take turns decode it once. -/
theorem racing_misses (RM : M.Recency) (RD : D.Recency) (codecs : Codecs) (fs : Filesystem)
    (metaBlocks dataBlocks : Nat) (calls : ι → List Call) (q : Req)
    (hroom : fs.HasRoom (fs.answers codecs) calls metaBlocks dataBlocks q)
    (hq : ∃ block, fs.answers codecs q = .ok block) (w : CountedReaders σ τ ι) :
    (Relation.ReflTransGen (Step (MountCaches.memo M D).recorded.frozen (fs.answers codecs))
        (fs.countedStart M D metaBlocks dataBlocks calls) w →
      misses q w.memory.2 ≤ Fintype.card ι) ∧
      ∀ n, Relation.ReflTransGen
          (fun w w' => Step (MountCaches.memo M D).recorded.frozen (fs.answers codecs) w w' ∧
            w'.pending q ≤ n)
          (fs.countedStart M D metaBlocks dataBlocks calls) w →
        misses q w.memory.2 ≤ n := by
  refine ⟨fun hrun => misses_le RM RD hroom hq ?_, fun n => misses_le RM RD hroom hq⟩
  exact hrun.lift id fun w w' hstep => ⟨hstep, World.pending_le q w'⟩

/-- Two readers of the sample's file in two chunks, of which one has finished: it asked for the
block twice, and decoded it once. -/
theorem racing_misses_sample :
    ∃ w : CountedReaders (BoundedMap.Lru Nat (Bytes × Nat)) (BoundedMap.Lru DataKey Bytes) Bool,
      w.memory.1.dataCache.stats (BoundedMap.lruRecency DataKey Bytes) = (1, 1, 1, 1) ∧
      misses (.data 96 0x1000003 3) w.memory.2 = 1 ∧
      misses (.data 96 0x1000003 3) w.memory.2 ≤ Fintype.card Bool := by
  let M := BoundedMap.lru Nat (Bytes × Nat)
  let D := BoundedMap.lru DataKey Bytes
  let calls : Bool → List Call := fun _ =>
    [.lookupPathBytes [0x61], .readFile 0 0 [0, 0], .readFile 0 2 [0]]
  have hroom : (sample.dataAsked (sample.answers .none) calls).card ≤ 1 := by decide +kernel
  have hdecodes : sample.answers .none (.data 96 0x1000003 3) = .ok [0x44, 0x80, 0x01] := by
    decide +kernel
  obtain ⟨w, hrun, hmemory, -⟩ := serve_steps (M := (MountCaches.memo M D).recorded.frozen)
    (f := sample.answers .none) (sample.session [] (calls true))
    (w := sample.countedStart M D 2 1 calls) (i := true) rfl
  have hmisses := (racing_misses (BoundedMap.lruRecency _ _) (BoundedMap.lruRecency _ _) .none
    sample 2 1 calls (.data 96 0x1000003 3) hroom ⟨_, hdecodes⟩ w).1 hrun
  refine ⟨w, ?_, ?_, hmisses⟩
  · rw [hmemory]
    decide +kernel
  · rw [hmemory]
    decide +kernel

end Filesystem

end Squashfs
