import Squashfs.Layout
import Squashfs.Listing

/-!
# The end of the directory table

About `directory_table_end` (`src/fs.rs:162-183`) and the superblock's
(`src/superblock.rs:281-293`). `directoryTableEnd` takes the nearest of the starts past the
directory table's, and of the first words of the later tables' indexes. It lies between the
directory table's start and the image's end, and no nearer than the tables that follow.

**`directoryTableEnd_tight`**: in a superblock that was accepted the end is past the start and
inside the image, and no farther than any start or first word past the start; and whatever offset
`D` the later tables keep clear of, it is `D` at least, so no listing whose blocks start below `D`
is refused for running past it.
-/

namespace Squashfs

open Foundation

namespace Superblock

/-- The index of the table at `t` is consulted. -/
def Consults (sb : Superblock) (t : UInt64) : Prop :=
  t ≠ NO_TABLE ∧ (t = sb.fragmentTableStart ∧ 0 < sb.fragmentEntryCount ∨ t = sb.exportTableStart ∨
    t = sb.idTableStart ∧ 0 < sb.idCount ∨ t = sb.xattrIdTableStart)

/-- No table after the directory table comes before `D`: none starts there, and no index that is
consulted names a first block there. -/
structure ClearBefore (dev : Device) (sb : Superblock) (D : Nat) : Prop where
  starts : ∀ t ∈ sb.laterTables, t ≠ NO_TABLE → D ≤ t.toNat
  words : ∀ t, sb.Consults t → ∀ word, dev.readAt t.toNat 8 = .ok word →
    (u64le word).toNat ≤ sb.directoryTableStart.toNat ∨ D ≤ (u64le word).toNat

theorem lt_of_inImage {sb : Superblock} {t : UInt64} (h : sb.inImage t = true) :
    t < sb.bytesUsed := by
  unfold inImage at h
  exact (of_decide_eq_true h).2

namespace Validated

variable {sb : Superblock} {deviceSize : Nat}

theorem directory_lt_used (h : sb.Validated deviceSize) :
    sb.directoryTableStart < sb.bytesUsed :=
  lt_of_inImage (h.required _ (by simp))

/-- The id table is there. -/
theorem id_present (h : sb.Validated deviceSize) : sb.idTableStart ≠ NO_TABLE := by
  intro habsent
  have hlt := UInt64.lt_iff_toNat_lt.mp (lt_of_inImage (h.required sb.idTableStart (by simp)))
  rw [habsent] at hlt
  exact absurd hlt (Nat.not_lt.mpr (Nat.le_of_lt_succ sb.bytesUsed.toNat_lt))

end Validated

/-! ## What the superblock says -/

theorem lt_directoryTableEnd {sb : Superblock} {deviceSize : Nat} (h : sb.Validated deviceSize) :
    sb.directoryTableStart.toNat < sb.directoryTableEnd := by
  have hused := UInt64.lt_iff_toNat_lt.mp h.directory_lt_used
  have hlt := sb.bytesUsed.toNat_lt
  exact lt_nearestPast (by unfold wordSize; omega)

theorem nearestPast_lt (t : UInt64) (starts : List UInt64) : nearestPast t starts < wordSize := by
  unfold nearestPast
  rcases hmin : ((starts.filter fun s => s != NO_TABLE && t < s).map UInt64.toNat).min? with _ | m
  · exact Nat.sub_one_lt (by decide)
  · obtain ⟨hmem, -⟩ := List.min?_eq_some_iff.mp hmin
    obtain ⟨s, -, rfl⟩ := List.mem_map.mp hmem
    exact s.toNat_lt

theorem directoryTableEnd_le {sb : Superblock} {deviceSize : Nat} (h : sb.Validated deviceSize) :
    sb.directoryTableEnd ≤ sb.bytesUsed.toNat := by
  by_cases hmax : sb.bytesUsed = NO_TABLE
  · rw [hmax]
    exact Nat.le_of_lt_succ (nearestPast_lt _ _)
  · exact nearestPast_le (by simp) hmax h.directory_lt_used

theorem le_directoryTableEnd {dev : Device} {sb : Superblock} {deviceSize D : Nat}
    (h : sb.Validated deviceSize) (hclear : sb.ClearBefore dev D) : D ≤ sb.directoryTableEnd := by
  have hid := hclear.starts sb.idTableStart (by simp [laterTables]) h.id_present
  have hlt := sb.idTableStart.toNat_lt
  refine le_nearestPast (by unfold wordSize; omega) fun t ht hne _ => ?_
  rw [show [sb.fragmentTableStart, sb.exportTableStart, sb.idTableStart, sb.xattrIdTableStart,
    sb.bytesUsed] = sb.laterTables ++ [sb.bytesUsed] from rfl] at ht
  rcases List.mem_append.mp ht with ht | ht
  · exact hclear.starts t ht hne
  · rw [List.mem_singleton.mp ht]
    have hused := UInt64.lt_iff_toNat_lt.mp (lt_of_inImage (h.required sb.idTableStart (by simp)))
    omega

end Superblock

/-! ## What the indexes say -/

theorem firstBlockPast_eq_some {dev : Device} {sb : Superblock} {t : UInt64} {first : Nat} :
    firstBlockPast dev sb t = some first ↔ ∃ word, dev.readAt t.toNat 8 = .ok word ∧
      sb.directoryTableStart.toNat < (u64le word).toNat ∧ first = (u64le word).toNat := by
  unfold firstBlockPast
  rcases dev.readAt t.toNat 8 with e | word
  · simp
  · by_cases hlt : sb.directoryTableStart < u64le word
    · simp [hlt, UInt64.lt_iff_toNat_lt.mp hlt, eq_comm]
    · dsimp only
      rw [if_neg hlt]
      constructor
      · exact nofun
      · rintro ⟨_, hword, hpast, -⟩
        cases hword
        exact absurd (UInt64.lt_iff_toNat_lt.mpr hpast) hlt

/-- The end is the superblock's, or nearer and the first word of an index that is consulted. -/
theorem directoryTableEnd_cases (dev : Device) (sb : Superblock) :
    directoryTableEnd dev sb = sb.directoryTableEnd ∨
      ∃ t first, sb.Consults t ∧ firstBlockPast dev sb t = some first ∧
        directoryTableEnd dev sb = first ∧ first ≤ sb.directoryTableEnd := by
  unfold directoryTableEnd
  refine List.foldlRecOn (motive := fun stop => stop = sb.directoryTableEnd ∨
    ∃ t first, sb.Consults t ∧ firstBlockPast dev sb t = some first ∧ stop = first ∧
      first ≤ sb.directoryTableEnd) _ _ (.inl rfl) fun stop hstop x hx => ?_
  obtain ⟨t, used⟩ := x
  dsimp only
  by_cases hskip : t = NO_TABLE ∨ ¬ used = true
  · rw [if_pos hskip]
    exact hstop
  rw [if_neg hskip]
  rw [not_or, not_not] at hskip
  rcases hfirst : firstBlockPast dev sb t with _ | first
  · exact hstop
  · dsimp only
    rcases Nat.le_total stop first with hle | hle
    · rw [Nat.min_eq_left hle]
      exact hstop
    · rw [Nat.min_eq_right hle]
      refine .inr ⟨t, first, ⟨hskip.1, ?_⟩, hfirst, rfl, Nat.le_trans hle ?_⟩
      · obtain ⟨-, rfl⟩ := hskip
        simpa using hx
      · rcases hstop with rfl | ⟨_, first', -, -, rfl, hle'⟩
        · exact Nat.le_refl _
        · exact hle'

section Nearest

variable {α : Type} {step : Nat → α → Nat}

theorem foldl_le (hstep : ∀ stop x, step stop x ≤ stop) (xs : List α) (stop : Nat) :
    xs.foldl step stop ≤ stop := by
  induction xs generalizing stop with
  | nil => exact Nat.le_refl _
  | cons x xs ih => exact Nat.le_trans (ih _) (hstep stop x)

/-- A fold that only comes nearer ends no farther than any of its steps can lead. -/
theorem foldl_le_of_mem (hstep : ∀ stop x, step stop x ≤ stop) {xs : List α} {x : α} (hx : x ∈ xs)
    {n : Nat} (hn : ∀ stop, step stop x ≤ n) (stop : Nat) : xs.foldl step stop ≤ n := by
  obtain ⟨before, after, rfl⟩ := List.append_of_mem hx
  rw [List.foldl_append, List.foldl_cons]
  exact Nat.le_trans (foldl_le hstep after _) (hn _)

end Nearest

/-- The end is no farther than what the superblock says, nor than the first block that any index
consulted names past the directory table's start. -/
theorem directoryTableEnd_le (dev : Device) (sb : Superblock) :
    directoryTableEnd dev sb ≤ sb.directoryTableEnd ∧
      ∀ t first, sb.Consults t → firstBlockPast dev sb t = some first →
        directoryTableEnd dev sb ≤ first := by
  unfold directoryTableEnd
  refine ⟨foldl_le ?nearer _ _, fun t first ht hfirst =>
    foldl_le_of_mem ?nearer (x := (t, true)) ?consulted (fun stop => ?_) _⟩
  case nearer =>
    rintro stop ⟨t, used⟩
    dsimp only
    split
    · exact Nat.le_refl _
    · split
      · exact Nat.min_le_left _ _
      · exact Nat.le_refl _
  case consulted =>
    obtain ⟨-, ht⟩ := ht
    rcases ht with ⟨rfl, hcount⟩ | rfl | ⟨rfl, hcount⟩ | rfl
    · simp [hcount]
    · simp
    · simp [hcount]
    · simp
  · dsimp only
    rw [if_neg (by simp [ht.1]), hfirst]
    exact Nat.min_le_right _ _

/-- The end is no farther than any later table's start past the directory table's. -/
theorem directoryTableEnd_le_start {dev : Device} {sb : Superblock} {t : UInt64}
    (ht : t ∈ sb.laterTables) (hne : t ≠ NO_TABLE) (hpast : sb.directoryTableStart < t) :
    directoryTableEnd dev sb ≤ t.toNat := by
  refine Nat.le_trans (directoryTableEnd_le dev sb).1
    (Superblock.nearestPast_le ?_ hne hpast)
  show t ∈ sb.laterTables ++ [sb.bytesUsed]
  exact List.mem_append_left _ ht

/-- The end is no farther than the first word of any index that is consulted. -/
theorem directoryTableEnd_le_word {dev : Device} {sb : Superblock} {t : UInt64}
    (ht : sb.Consults t) {word : Bytes} (hword : dev.readAt t.toNat 8 = .ok word)
    (hpast : sb.directoryTableStart.toNat < (u64le word).toNat) :
    directoryTableEnd dev sb ≤ (u64le word).toNat :=
  (directoryTableEnd_le dev sb).2 t _ ht (firstBlockPast_eq_some.mpr ⟨word, hword, hpast, rfl⟩)

/-- The end lies past the directory table's start and inside the image. -/
theorem directoryTableEnd_inside {dev : Device} {sb : Superblock} {deviceSize : Nat}
    (h : sb.Validated deviceSize) : sb.directoryTableStart.toNat < directoryTableEnd dev sb ∧
      directoryTableEnd dev sb ≤ sb.bytesUsed.toNat := by
  have hle := Superblock.directoryTableEnd_le h
  rcases directoryTableEnd_cases dev sb with heq | ⟨t, first, -, hfirst, heq, hnear⟩
  · rw [heq]
    exact ⟨Superblock.lt_directoryTableEnd h, hle⟩
  · obtain ⟨word, -, hpast, rfl⟩ := firstBlockPast_eq_some.mp hfirst
    rw [heq]
    exact ⟨hpast, Nat.le_trans hnear hle⟩

/-- The end is no nearer than what the later tables keep clear of. -/
theorem le_directoryTableEnd {dev : Device} {sb : Superblock} {deviceSize D : Nat}
    (h : sb.Validated deviceSize) (hclear : sb.ClearBefore dev D) :
    D ≤ directoryTableEnd dev sb := by
  rcases directoryTableEnd_cases dev sb with heq | ⟨t, first, ht, hfirst, heq, -⟩
  · rw [heq]
    exact Superblock.le_directoryTableEnd h hclear
  · obtain ⟨word, hword, hpast, rfl⟩ := firstBlockPast_eq_some.mp hfirst
    rw [heq]
    exact (hclear.words t ht word hword).resolve_left (Nat.not_le_of_lt hpast)

/-! ## Running past the end -/

variable {f : ∀ q, Reply q}

namespace MetaCursor

/-- A read that is refused at its limit has used up the blocks before it, and needs one past it. -/
theorem ensureLoop_past (hf : ∀ q, Avoids (.badMetadata Filesystem.PAST_TABLE_END) (f q))
    {n turns stop : Nat} {cur : MetaCursor}
    (hlimit : cur.limit = some (stop, Filesystem.PAST_TABLE_END))
    (hin : cur.pos ≤ cur.buf.length)
    (h : (Stateful.exec f (ensureLoop n turns) cur).1 =
      fails (.badMetadata Filesystem.PAST_TABLE_END)) :
    ∃ segs abs, Segments f none cur.nextAbs segs abs ∧
      cur.buf.length - cur.pos + (bytesOf segs).length < n ∧ stop ≤ abs := by
  induction turns generalizing cur with
  | zero =>
    rw [ensureLoop, Stateful.exec_bind, Stateful.exec_get] at h
    dsimp only at h
    rw [Stateful.exec_bind, Stateful.exec_lift, unread_ok hin] at h
    dsimp only at h
    split at h <;> cases h
  | succ turns ih =>
    rw [exec_ensureLoop_succ hin] at h
    by_cases hshort : cur.buf.length - cur.pos < n
    · rw [if_pos hshort, Stateful.exec_bind, exec_refill cur hin] at h
      by_cases hpast : stop ≤ cur.nextAbs
      · exact ⟨[], _, .nil _, hshort, hpast⟩
      · have hwithin : checkLimit cur.limit cur.nextAbs = .ok () := by
          rw [hlimit]
          exact if_neg hpast
        rw [hwithin] at h
        have hblock := hf (.block cur.nextAbs)
        rcases hb : f (.block cur.nextAbs) with e | ⟨block, next⟩
        · rw [hb] at h hblock
          dsimp only at h
          exact absurd (congrArg Except.error (Except.error.inj h)) hblock
        · rw [hb] at h
          dsimp only at h
          by_cases hempty : block.isEmpty
          · rw [if_pos hempty] at h
            exact absurd h (by simp [Filesystem.PAST_TABLE_END])
          · rw [if_neg hempty] at h
            dsimp only at h
            obtain ⟨segs, abs, hs, hlen, habs⟩ :=
              @ih { cur with nextAbs := next, buf := _, pos := 0 } hlimit (Nat.zero_le _) h
            rw [List.isEmpty_iff] at hempty
            have hwithout : Within none cur.nextAbs := by
              intro stop' why hnone
              cases hnone
            refine ⟨_, abs, .cons hwithout hb hempty hs, ?_, habs⟩
            simp only [List.length_append, List.length_drop, Nat.sub_zero] at hlen
            rw [bytesOf_cons, List.length_append]
            omega
    · rw [if_neg hshort] at h
      cases h

theorem readExact_past (hf : ∀ q, Avoids (.badMetadata Filesystem.PAST_TABLE_END) (f q))
    {n stop : Nat} {cur : MetaCursor}
    (hlimit : cur.limit = some (stop, Filesystem.PAST_TABLE_END))
    (hin : cur.pos ≤ cur.buf.length)
    (h : (Stateful.exec f (readExact n) cur).1 = fails (.badMetadata Filesystem.PAST_TABLE_END)) :
    ∃ segs abs, Segments f none cur.nextAbs segs abs ∧
      cur.buf.length - cur.pos + (bytesOf segs).length < n ∧ stop ≤ abs := by
  refine @ensureLoop_past _ hf n n _ _ hlimit hin ?_
  unfold readExact ensure at h
  rw [Stateful.exec_bind] at h
  rcases hrun : Stateful.exec f (ensureLoop n n) cur with ⟨x, mid⟩
  rw [hrun] at h
  cases x with
  | error e =>
    dsimp only at h
    exact congrArg Except.error (Except.error.inj h)
  | ok u =>
    dsimp only at h
    rw [Stateful.exec_bind, Stateful.exec_get] at h
    dsimp only at h
    rw [Stateful.exec_bind, Stateful.exec_lift] at h
    have htake : Avoids (.badMetadata Filesystem.PAST_TABLE_END) (take mid n) := by simp [take]
    rcases ht : take mid n with e | ⟨out, cur'⟩
    · rw [ht] at h htake
      dsimp only at h
      exact absurd (congrArg Except.error (Except.error.inj h)) htake
    · rw [ht] at h
      cases h

end MetaCursor

namespace Filesystem

/-- Reading a directory's listing takes a block at `abs`: the first, or the one that follows as
many blocks as do not hold the listing yet. -/
def Takes (f : ∀ q, Reply q) (fs : Filesystem) (inode : Inode) (abs : Nat) : Prop :=
  abs = fs.listingStart inode ∨
    ∃ block next segs, f (.block (fs.listingStart inode)) = .ok (block, next) ∧
      Segments f none next segs abs ∧
      block.length - inode.dirBlockOffset.toNat + (bytesOf segs).length < inode.dirListingLen

/-- A listing refused for running past the end takes a block past it. -/
theorem takes_of_past {fs : Filesystem} {inode : Inode}
    (hf : ∀ q, Avoids (.badMetadata PAST_TABLE_END) (f q))
    (h : Asking.exec f (fs.readDir inode) = fails (.badMetadata PAST_TABLE_END)) :
    ∃ abs, fs.Takes f inode abs ∧ fs.dirTableEnd ≤ abs := by
  have hdir : inode.isDir = true := by
    by_contra hdir
    unfold readDir at h
    rw [Asking.exec_ite, if_pos hdir] at h
    cases h
  have hne : inode.dirListingLen ≠ 0 := by
    intro hzero
    unfold readDir at h
    rw [Asking.exec_ite, if_neg (not_not_intro hdir), Asking.exec_ite, if_pos hzero] at h
    cases h
  rw [exec_readDir hdir hne] at h
  have hlisting : Asking.exec f (fs.readListing inode) = fails (.badMetadata PAST_TABLE_END) := by
    rcases hx : Asking.exec f (fs.readListing inode) with e | buf
    · rw [hx] at h
      exact congrArg Except.error (Except.error.inj h)
    · rw [hx] at h
      exact absurd h (avoids_parseListing (by simp) buf)
  unfold readListing MetaCursor.new at hlisting
  rw [Asking.exec_bind, Asking.exec_bind, exec_readBlock] at hlisting
  have hblock := hf (.block (fs.listingStart inode))
  rcases hb : f (.block (fs.listingStart inode)) with e | ⟨block, next⟩
  · rw [hb, error_bind, error_bind] at hlisting
    rw [hb] at hblock
    exact absurd (congrArg Except.error (Except.error.inj hlisting)) hblock
  · rw [hb, ok_bind] at hlisting
    dsimp only at hlisting
    rw [Asking.exec_ite] at hlisting
    by_cases hpast : block.length < inode.dirBlockOffset.toNat
    · rw [if_pos hpast] at hlisting
      exact absurd hlisting (by simp [PAST_TABLE_END])
    · rw [if_neg hpast] at hlisting
      have hrun := (Stateful.exec_eval ..).symm.trans hlisting
      obtain ⟨segs, abs, hs, hlen, habs⟩ :=
        MetaCursor.readExact_past hf rfl (Nat.le_of_not_lt hpast) hrun
      exact ⟨abs, .inr ⟨block, next, segs, hb, hs, hlen⟩, habs⟩

end Filesystem

/-- **The end of the directory table is tight**: it is past the table's start and inside the
image, no farther than any table or first word past that start, and no listing is refused for
running past it whose blocks start before whatever `D` the later tables keep clear of. -/
theorem directoryTableEnd_tight {dev : Device} {sb : Superblock}
    (hvalid : sb.validateAgainstDevice dev.sizeBytes = .ok ()) :
    (sb.directoryTableStart.toNat < directoryTableEnd dev sb ∧
      directoryTableEnd dev sb ≤ sb.bytesUsed.toNat ∧ sb.bytesUsed.toNat ≤ dev.sizeBytes) ∧
    (∀ t ∈ sb.laterTables, t ≠ NO_TABLE → sb.directoryTableStart < t →
      directoryTableEnd dev sb ≤ t.toNat) ∧
    (∀ t, sb.Consults t → ∀ word, dev.readAt t.toNat 8 = .ok word →
      sb.directoryTableStart.toNat < (u64le word).toNat →
      directoryTableEnd dev sb ≤ (u64le word).toNat) ∧
    ∀ D, sb.ClearBefore dev D →
      D ≤ directoryTableEnd dev sb ∧
      ∀ (codecs : Codecs) (fs : Filesystem), fs.dev = dev → fs.sb = sb →
        fs.dirTableEnd = directoryTableEnd dev sb → ∀ inode : Inode,
        (∀ abs, fs.Takes (fs.answers codecs) inode abs → abs < D) →
        Asking.exec (fs.answers codecs) (fs.readDir inode) ≠
          fails (.badMetadata Filesystem.PAST_TABLE_END) := by
  have h := Superblock.validateAgainstDevice_eq_ok.mp hvalid
  obtain ⟨hlow, hhigh⟩ := @directoryTableEnd_inside dev _ _ h
  refine ⟨⟨hlow, hhigh, h.size⟩, fun t => directoryTableEnd_le_start,
    fun t ht word => directoryTableEnd_le_word ht, fun D hclear => ?_⟩
  have hD := le_directoryTableEnd h hclear
  refine ⟨hD, ?_⟩
  rintro codecs fs rfl rfl hend inode hbelow hpast
  obtain ⟨abs, htakes, habs⟩ :=
    Filesystem.takes_of_past (avoids_uncached codecs fs.dev fs.sb fs.comp) hpast
  have := hbelow abs htakes
  omega

/-- The sample's directory table ends where its ids start. -/
theorem directoryTableEnd_tight_sample :
    directoryTableEnd Filesystem.sample.dev Filesystem.sample.sb = PlainImage.sample.idsAt ∧
    Asking.exec (Filesystem.sample.answers .none) (Filesystem.sample.readDir
      (InodeRecord.toInode ⟨0x1ED, 0, 0, 0, 1⟩ (.basicDir 0 2 24 0 1))) ≠
        fails (.badMetadata Filesystem.PAST_TABLE_END) := by
  have hvalid := Superblock.validateAgainstDevice_eq_ok.mpr PlainImage.sampleLayout.validated
  have hclear : PlainImage.sample.superblock.ClearBefore Filesystem.sample.dev
      PlainImage.sample.idsAt := {
    starts := by
      have hall : PlainImage.sample.superblock.laterTables.all (fun t => decide (t ≠ NO_TABLE →
          PlainImage.sample.idsAt ≤ t.toNat)) = true := by decide +kernel
      exact fun t ht => of_decide_eq_true (List.all_eq_true.mp hall t ht)
    words := by
      rintro t ⟨hne, ht⟩ word hword
      have hid : t = PlainImage.sample.superblock.idTableStart := by
        rcases ht with ⟨-, hcount⟩ | rfl | ⟨rfl, -⟩ | rfl
        · exact absurd hcount (by decide +kernel)
        · exact absurd rfl hne
        · rfl
        · exact absurd rfl hne
      subst hid
      have hread : Filesystem.sample.dev.readAt
          PlainImage.sample.superblock.idTableStart.toNat 8 =
            .ok (u64Bytes (UInt64.ofNat PlainImage.sample.idsAt)) := by decide +kernel
      rw [hread] at hword
      cases hword
      exact .inr (by decide +kernel) }
  obtain ⟨-, -, hwords, hlow⟩ := directoryTableEnd_tight hvalid
  have htight := hlow _ hclear
  refine ⟨Nat.le_antisymm ?_ htight.1,
    htight.2 .none Filesystem.sample rfl rfl (by decide +kernel) _ ?_⟩
  · have hword : Filesystem.sample.dev.readAt PlainImage.sample.superblock.idTableStart.toNat 8 =
        .ok (u64Bytes (UInt64.ofNat PlainImage.sample.idsAt)) := by decide +kernel
    exact hwords _ ⟨by decide +kernel, .inr (.inr (.inl ⟨rfl, by decide +kernel⟩))⟩ _ hword
      (by decide +kernel)
  rintro abs (rfl | ⟨block, next, segs, hblock, -, hshort⟩)
  · decide +kernel
  · have hread : Filesystem.sample.answers .none (.block (Filesystem.sample.listingStart
        (InodeRecord.toInode ⟨0x1ED, 0, 0, 0, 1⟩ (.basicDir 0 2 24 0 1)))) =
          .ok (PlainImage.sample.listings, PlainImage.sample.idsAt) := by decide +kernel
    rw [hread] at hblock
    cases hblock
    have hholds : ¬ PlainImage.sample.listings.length < 21 := by decide
    exact absurd (Nat.lt_of_le_of_lt (Nat.le_add_right _ _) hshort) hholds

end Squashfs
