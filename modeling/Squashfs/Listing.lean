import Squashfs.Blame

/-!
# Where a listing comes from

About `read_dir` (`src/fs.rs:435-481`) and `MetaCursor::with_limit` (`src/metablock.rs:339-373`). A
directory's listing is a run of metadata blocks, and belongs in the directory table: from its start
up to `directoryTableEnd`. The cursor that reads it refuses to pull a block past the end, but the
first block is there before the limit is.

**`fromDirectoryTable_iff`**: a listing comes from the directory table only, and one from elsewhere
is refused as such, exactly unless it lies whole in a first block at or past the end
(`FirstBlockUnchecked`).
-/

namespace Squashfs

open Foundation

variable {f : ∀ q, Reply q}

/-! ## Runs of blocks -/

/-- Each block ends before the next begins. -/
def Advances (f : ∀ q, Reply q) : Prop :=
  ∀ abs block next, f (.block abs) = .ok (block, next) → abs < next

theorem Segments.from_le (hadv : Advances f) {limit : Option (Nat × String)} {abs fin : Nat}
    {segs : List (Nat × Bytes)} (h : Segments f limit abs segs fin) : ∀ x ∈ segs, abs ≤ x.1 := by
  induction h with
  | nil => exact fun x hx => absurd hx List.not_mem_nil
  | cons _ hblock _ _ ih =>
    intro x hx
    rcases List.mem_cons.mp hx with rfl | hx
    · exact Nat.le_refl _
    · exact Nat.le_trans (Nat.le_of_lt (hadv _ _ _ hblock)) (ih x hx)

theorem Segments.within {stop : Nat} {why : String} {abs fin : Nat} {segs : List (Nat × Bytes)}
    (h : Segments f (some (stop, why)) abs segs fin) : ∀ x ∈ segs, x.1 < stop := by
  generalize hl : some (stop, why) = limit at h
  induction h with
  | nil => exact fun x hx => absurd hx List.not_mem_nil
  | cons hlimit _ _ _ ih =>
    intro x hx
    rcases List.mem_cons.mp hx with rfl | hx
    · exact hlimit stop why hl.symm
    · exact ih x hx

/-- Two runs from one offset are the same as far as both go. -/
theorem Segments.compat {limit limit' : Option (Nat × String)} {abs fin fin' : Nat}
    {segs segs' : List (Nat × Bytes)} (h : Segments f limit abs segs fin)
    (h' : Segments f limit' abs segs' fin') : segs <+: segs' ∨ segs' <+: segs := by
  induction h generalizing segs' with
  | nil => exact .inl List.nil_prefix
  | cons _ hblock _ _ ih =>
    cases h' with
    | nil => exact .inr List.nil_prefix
    | cons _ hblock' _ tail' =>
      rw [hblock] at hblock'
      cases hblock'
      exact (ih tail').imp (List.prefix_cons_inj _).mpr (List.prefix_cons_inj _).mpr

theorem bytesOf_append (segs segs' : List (Nat × Bytes)) :
    bytesOf (segs ++ segs') = bytesOf segs ++ bytesOf segs' := by
  simp [bytesOf]

/-- The block that holds a byte of a run is one of the run's. -/
theorem mem_of_byte {segs pre post rest : List (Nat × Bytes)} {x : Nat × Bytes}
    (h : pre ++ x :: post = segs ++ rest)
    (hlt : (bytesOf pre).length < (bytesOf segs).length) : x ∈ segs := by
  rcases List.append_eq_append_iff.mp h with ⟨mid, rfl, hmid⟩ | ⟨mid, rfl, -⟩
  · cases mid with
    | nil =>
      rw [List.append_nil] at hlt
      exact absurd hlt (Nat.lt_irrefl _)
    | cons y mid =>
      cases hmid
      exact List.mem_append_right _ List.mem_cons_self
  · rw [bytesOf_append, List.length_append] at hlt
    omega

/-! ## Reading under a limit -/

namespace MetaCursor

/-- A cursor whose stream goes on reads up to its limit: it gets its bytes, or the limit's error. -/
theorem ensureLoop_limit (hf : Tame f) {n turns : Nat} (hn : n ≤ maxRead) {cur : MetaCursor}
    {stop : Nat} {why : String} (hlimit : cur.limit = some (stop, why)) (h : cur.Good)
    (hturns : n ≤ turns + (cur.buf.length - cur.pos)) {w : Bytes}
    (hw : Feeds f { cur with limit := none } w) (hlen : n ≤ w.length) :
    (Stateful.exec f (ensureLoop n turns) cur).1 = .ok () ∨
      (Stateful.exec f (ensureLoop n turns) cur).1 = fails (.badMetadata why) := by
  induction turns generalizing cur with
  | zero => exact .inl (by rw [exec_ensureLoop_zero h.inside (by omega)])
  | succ turns ih =>
    rw [exec_ensureLoop_succ h.inside]
    by_cases hshort : cur.buf.length - cur.pos < n
    · rw [if_pos hshort]
      have hgood : Good { cur with limit := none } := ⟨h.inside, h.small⟩
      obtain ⟨mid, hmid⟩ := refill_of_feeds hgood hw (by dsimp only; omega)
      obtain ⟨block, next, -, hblock, hne, rfl⟩ := (refill_eq_ok hgood.inside).mp hmid
      by_cases hin : cur.nextAbs < stop
      · have hwithin : Within cur.limit cur.nextAbs := fun stop' why' hl => by
          rw [hlimit] at hl
          cases hl
          exact hin
        have hr := (refill_eq_ok h.inside).mpr ⟨block, next, hwithin, hblock, hne, rfl⟩
        obtain ⟨hg, hlt⟩ := good_of_refill hf h (by omega) hr
        rw [Stateful.exec_bind_ok hr]
        exact ih hlimit hg (by omega) ((feeds_refill hgood hmid w).mpr hw)
      · refine .inr ?_
        have hlim : checkLimit cur.limit cur.nextAbs = fails (.badMetadata why) := by
          rw [hlimit]
          exact if_pos (Nat.le_of_not_lt hin)
        rw [Stateful.exec_bind, exec_refill cur h.inside, hlim]
    · rw [if_neg hshort]
      exact .inl rfl

theorem readExact_limit (hf : Tame f) {n : Nat} (hn : n ≤ maxRead) {cur : MetaCursor}
    {stop : Nat} {why : String} (hlimit : cur.limit = some (stop, why)) (h : cur.Good) {w : Bytes}
    (hw : Feeds f { cur with limit := none } w) (hlen : n ≤ w.length) :
    (∃ out, (Stateful.exec f (readExact n) cur).1 = .ok out) ∨
      (Stateful.exec f (readExact n) cur).1 = fails (.badMetadata why) := by
  rcases ensureLoop_limit hf hn hlimit h (Nat.le_add_right n _) hw hlen with hok | herr
  · have hens : Stateful.exec f (ensureLoop n n) cur =
        (.ok (), (Stateful.exec f (ensureLoop n n) cur).2) := by
      rw [← hok]
    exact .inl ⟨_, congrArg Prod.fst ((readExact_eq_ok hf hn h).mpr ⟨_, hens, rfl, rfl⟩)⟩
  · refine .inr ?_
    unfold readExact ensure
    rw [Stateful.exec_bind]
    rcases hrun : Stateful.exec f (ensureLoop n n) cur with ⟨x, mid⟩
    rw [hrun] at herr
    have herr : x = fails (.badMetadata why) := herr
    rw [herr]

end MetaCursor

/-! ## Listings -/

namespace Filesystem

/-- The blocks a directory's listing starts in and goes on through, with no limit. -/
def ListingBlocks (f : ∀ q, Reply q) (fs : Filesystem) (inode : Inode)
    (blocks : List (Nat × Bytes)) : Prop :=
  ∃ block next segs fin, f (.block (fs.listingStart inode)) = .ok (block, next) ∧
    Segments f none next segs fin ∧ blocks = (fs.listingStart inode, block) :: segs

/-- Byte `p` of the blocks lies in the one that starts at `abs`. -/
def ByteIn (blocks : List (Nat × Bytes)) (p abs : Nat) : Prop :=
  ∃ pre block post, blocks = pre ++ (abs, block) :: post ∧
    (bytesOf pre).length ≤ p ∧ p < (bytesOf pre).length + block.length

/-- The block at `abs` contributes to a directory's listing: some byte of the listing is its. -/
def Contributes (f : ∀ q, Reply q) (fs : Filesystem) (inode : Inode) (abs : Nat) : Prop :=
  ∃ blocks p, fs.ListingBlocks f inode blocks ∧ ByteIn blocks p abs ∧
    inode.dirBlockOffset.toNat ≤ p ∧ p < inode.dirBlockOffset.toNat + inode.dirListingLen

/-- A block at `abs` is the directory table's. -/
def InDirectoryTable (fs : Filesystem) (abs : Nat) : Prop :=
  fs.sb.directoryTableStart.toNat ≤ abs ∧ abs < Squashfs.directoryTableEnd fs.dev fs.sb

/-- The image has the bytes of the listing, wherever they are. -/
def ListingStored (f : ∀ q, Reply q) (fs : Filesystem) (inode : Inode) : Prop :=
  ∃ w, w.length = inode.dirListingLen ∧
    StreamAt f (fs.listingStart inode) inode.dirBlockOffset.toNat w

/-- A listing comes from the directory table only: the blocks of one that is accepted are the
table's, and one with other blocks is refused because it runs past the table's end. -/
structure FromDirectoryTable (f : ∀ q, Reply q) (fs : Filesystem) (inode : Inode) : Prop where
  accepted : ∀ entries, Asking.exec f (fs.readDir inode) = .ok entries →
    ∀ abs, fs.Contributes f inode abs → fs.InDirectoryTable abs
  refused : fs.ListingStored f inode →
    (∃ abs, fs.Contributes f inode abs ∧ ¬ fs.InDirectoryTable abs) →
    Asking.exec f (fs.readDir inode) = fails (.badMetadata PAST_TABLE_END)

/-- The listing lies whole in its first block, and that block is at or past the table's end. -/
def FirstBlockUnchecked (f : ∀ q, Reply q) (fs : Filesystem) (inode : Inode) : Prop :=
  0 < inode.dirListingLen ∧ Squashfs.directoryTableEnd fs.dev fs.sb ≤ fs.listingStart inode ∧
    ∃ block next, f (.block (fs.listingStart inode)) = .ok (block, next) ∧
      inode.dirBlockOffset.toNat + inode.dirListingLen ≤ block.length

variable {fs : Filesystem} {inode : Inode}

/-- A directory's listing starts in the table or past it. -/
theorem start_le_listingStart : fs.sb.directoryTableStart.toNat ≤ fs.listingStart inode :=
  le_saturatingAdd fs.sb.directoryTableStart.toNat_lt

/-- What reading a listing takes: its first block, and as many blocks before the limit as hold
the rest. -/
theorem readListing_eq_ok (hf : Tame f) (hlen : inode.dirListingLen ≤ maxRead) {buf : Bytes} :
    Asking.exec f (fs.readListing inode) = .ok buf ↔
      ∃ block next segs fin, f (.block (fs.listingStart inode)) = .ok (block, next) ∧
        inode.dirBlockOffset.toNat ≤ block.length ∧
        Segments f (some (fs.dirTableEnd, PAST_TABLE_END)) next segs fin ∧
        buf.length = inode.dirListingLen ∧
        buf <+: block.drop inode.dirBlockOffset.toNat ++ bytesOf segs := by
  unfold readListing
  rw [Asking.exec_bind, bind_eq_ok]
  have hread := MetaCursor.parses_readExact hf hlen
  constructor
  · rintro ⟨cur, hnew, hrun⟩
    have hgood := MetaCursor.withLimit_good ((MetaCursor.safe_new hf _ _).of_eq hnew)
      fs.dirTableEnd PAST_TABLE_END
    rw [Stateful.exec_eval] at hrun
    obtain ⟨_, hrun⟩ := Stateful.exec_of_fst hrun
    obtain ⟨w, ⟨rfl, hbuf⟩, hA⟩ := hread.sound hgood hrun
    obtain ⟨block, next, hb, hle, rfl⟩ := new_eq_ok.mp hnew
    obtain ⟨segs, fin, hs, hp⟩ := hA.feeds
    exact ⟨block, next, segs, fin, hb, hle, hs, hbuf, hp⟩
  · rintro ⟨block, next, segs, fin, hb, hle, hs, hbuf, hp⟩
    have hnew := new_eq_ok.mpr ⟨block, next, hb, hle, rfl⟩
    have hgood := MetaCursor.withLimit_good ((MetaCursor.safe_new hf _ _).of_eq hnew)
      fs.dirTableEnd PAST_TABLE_END
    obtain ⟨cur', hrun, -⟩ := hread.complete hgood ⟨segs, fin, hs, hp⟩ ⟨rfl, hbuf⟩
    exact ⟨_, hnew, by rw [Stateful.exec_eval, hrun]⟩

/-- A listing the image has is read, or refused because it runs past the table's end. -/
theorem readListing_of_stored (hf : Tame f) (hlen : inode.dirListingLen ≤ maxRead)
    (h : fs.ListingStored f inode) :
    (∃ buf, Asking.exec f (fs.readListing inode) = .ok buf) ∨
      Asking.exec f (fs.readListing inode) = fails (.badMetadata PAST_TABLE_END) := by
  obtain ⟨w, hw, block, next, segs, fin, hb, hle, hs, hp⟩ := h
  have hnew := new_eq_ok.mpr ⟨block, next, hb, hle, rfl⟩
  have hgood := MetaCursor.withLimit_good ((MetaCursor.safe_new hf _ _).of_eq hnew)
    fs.dirTableEnd PAST_TABLE_END
  unfold readListing
  rw [Asking.exec_bind, hnew, ok_bind, Stateful.exec_eval]
  exact MetaCursor.readExact_limit hf hlen rfl hgood ⟨segs, fin, hs, hp⟩ (Nat.le_of_eq hw.symm)

/-- The blocks of a listing that is read are the directory table's, unless its first block went
unchecked. -/
theorem inDirectoryTable_of_read (hf : Tame f) (hadv : Advances f)
    (hend : fs.dirTableEnd = Squashfs.directoryTableEnd fs.dev fs.sb)
    (hlen : inode.dirListingLen ≤ maxRead) {buf : Bytes}
    (hread : Asking.exec f (fs.readListing inode) = .ok buf)
    (hfirst : ¬ fs.FirstBlockUnchecked f inode) {abs : Nat} (h : fs.Contributes f inode abs) :
    fs.InDirectoryTable abs := by
  obtain ⟨block, next, segs, fin, hb, hle, hs, hbuf, hp⟩ := (readListing_eq_ok hf hlen).mp hread
  obtain ⟨blocks, p, ⟨block', next', segs', fin', hb', hs', rfl⟩, ⟨pre, b, post, heq, hlo, hhi⟩,
    hp₁, hp₂⟩ := h
  rw [hb] at hb'
  cases hb'
  have hstart : fs.sb.directoryTableStart.toNat ≤ fs.listingStart inode := start_le_listingStart
  have hnext := hadv _ _ _ hb
  have hroom := hp.length_le
  rw [hbuf, List.length_append, List.length_drop] at hroom
  cases pre with
  | nil =>
    cases heq
    refine ⟨hstart, Nat.lt_of_not_le fun hpast => ?_⟩
    cases hs with
    | nil =>
      rw [bytesOf_nil, List.length_nil] at hroom
      exact hfirst ⟨by omega, hpast, block, next, hb, by omega⟩
    | cons hlimit _ _ _ =>
      have := hlimit _ _ rfl
      omega
  | cons x pre =>
    cases heq
    rw [bytesOf_cons, List.length_append] at hlo
    have hlt : (bytesOf pre).length < (bytesOf segs).length := by omega
    have hmem : (abs, b) ∈ segs := by
      rcases hs.compat hs' with ⟨rest, hrest⟩ | ⟨rest, hrest⟩
      · exact mem_of_byte hrest.symm hlt
      · rw [← hrest]
        exact List.mem_append_left _ (List.mem_append_right _ List.mem_cons_self)
    have habs := hs.from_le hadv _ hmem
    have hstop := hs.within _ hmem
    rw [hend] at hstop
    exact ⟨by dsimp only at habs; omega, hstop⟩

/-- What listing a directory comes to when its listing is not empty. -/
theorem exec_readDir (hdir : inode.isDir = true) (hne : inode.dirListingLen ≠ 0) :
    Asking.exec f (fs.readDir inode) =
      Asking.exec f (fs.readListing inode) >>= fun buf => parseListing buf := by
  unfold readDir
  rw [Asking.exec_ite, if_neg (not_not_intro hdir), Asking.exec_ite, if_neg hne, Asking.exec_bind]
  rfl

/-- A contributing block is one of a listing that is not empty. -/
theorem Contributes.ne_zero {abs : Nat} (h : fs.Contributes f inode abs) :
    inode.dirListingLen ≠ 0 := by
  obtain ⟨blocks, p, -, -, hlo, hhi⟩ := h
  omega

/-- A listing that its unchecked first block holds is read, although it is not the table's. -/
theorem FirstBlockUnchecked.read (hf : Tame f) (hlen : inode.dirListingLen ≤ maxRead)
    (h : fs.FirstBlockUnchecked f inode) :
    (∃ buf, Asking.exec f (fs.readListing inode) = .ok buf) ∧ fs.ListingStored f inode ∧
      fs.Contributes f inode (fs.listingStart inode) ∧
      ¬ fs.InDirectoryTable (fs.listingStart inode) := by
  obtain ⟨hpos, hpast, block, next, hb, hfit⟩ := h
  have hwindow : ((block.drop inode.dirBlockOffset.toNat).take inode.dirListingLen).length =
      inode.dirListingLen := window_length hfit
  have hpre : (block.drop inode.dirBlockOffset.toNat).take inode.dirListingLen <+:
      block.drop inode.dirBlockOffset.toNat ++ bytesOf [] := by
    rw [bytesOf_nil, List.append_nil]
    exact List.take_prefix _ _
  refine ⟨⟨_, (readListing_eq_ok hf hlen).mpr ⟨block, next, [], next, hb, by omega, .nil _,
    hwindow, hpre⟩⟩, ⟨_, hwindow, block, next, [], next, hb, by omega, .nil _, hpre⟩,
    ⟨[(fs.listingStart inode, block)], inode.dirBlockOffset.toNat,
      ⟨block, next, [], next, hb, .nil _, rfl⟩, ⟨[], block, [], rfl, Nat.zero_le _, ?_⟩,
      Nat.le_refl _, by omega⟩, fun hin => absurd hin.2 (Nat.not_lt.mpr hpast)⟩
  rw [bytesOf_nil, List.length_nil]
  omega

/-- **A listing comes from the directory table only**, and one from elsewhere is refused as such,
exactly unless it lies whole in an unchecked first block. -/
theorem fromDirectoryTable_iff {caching : Caching} {codecs : Codecs} {dev : Device}
    {fs : Filesystem} (hopen : openImage caching codecs dev = .ok fs) {inodeRef : UInt64}
    {inode : Inode} (hread : Asking.exec (fs.answers codecs) (fs.readInode inodeRef) = .ok inode)
    (hdir : inode.isDir = true) :
    fs.FromDirectoryTable (fs.answers codecs) inode ↔
      ¬ fs.FirstBlockUnchecked (fs.answers codecs) inode := by
  have hf := fs.tame_answers codecs
  have hadv : Advances (fs.answers codecs) := fun abs block next h =>
    ((safe_readBlockUncached codecs fs.dev fs.sb abs).of_eq h).2.1
  have hlen : inode.dirListingLen ≤ maxRead := Nat.le_trans (Nat.sub_le _ _)
    (Nat.le_of_lt ((Inode.geometry_of_read hf hread).listing hdir))
  have hend := dirTableEnd_of_open hopen
  constructor
  · intro h hfirst
    obtain ⟨⟨buf, hbuf⟩, hstored, hcontrib, hout⟩ := hfirst.read hf hlen
    have hdirRun : Asking.exec (fs.answers codecs) (fs.readDir inode) = _ :=
      exec_readDir hdir hcontrib.ne_zero
    rw [hbuf, ok_bind] at hdirRun
    have hrefused := h.refused hstored ⟨_, hcontrib, hout⟩
    rw [hdirRun] at hrefused
    exact avoids_parseListing (by simp) buf hrefused
  · intro hfirst
    have hinside : ∀ buf, Asking.exec (fs.answers codecs) (fs.readListing inode) = .ok buf →
        ∀ abs, fs.Contributes (fs.answers codecs) inode abs → fs.InDirectoryTable abs :=
      fun buf hbuf abs habs => inDirectoryTable_of_read hf hadv hend hlen hbuf hfirst habs
    constructor
    · intro entries hentries abs habs
      rw [exec_readDir hdir habs.ne_zero] at hentries
      obtain ⟨buf, hbuf, -⟩ := bind_eq_ok.mp hentries
      exact hinside buf hbuf abs habs
    · rintro hstored ⟨abs, habs, hout⟩
      rw [exec_readDir hdir habs.ne_zero]
      rcases readListing_of_stored hf hlen hstored with ⟨buf, hbuf⟩ | herr
      · exact absurd (hinside buf hbuf abs habs) hout
      · rw [herr, error_bind]

theorem fromDirectoryTable_sample :
    sample.FromDirectoryTable (sample.answers .none)
      (InodeRecord.toInode ⟨0x1ED, 0, 0, 0, 1⟩ (.basicDir 0 2 24 0 1)) := by
  have hread : Asking.exec (sample.answers .none) (sample.readInode 0) =
      .ok (InodeRecord.toInode ⟨0x1ED, 0, 0, 0, 1⟩ (.basicDir 0 2 24 0 1)) := by decide +kernel
  refine (fromDirectoryTable_iff openImage_sample hread rfl).mpr ?_
  rintro ⟨-, hpast, -⟩
  exact absurd hpast (by decide +kernel)

/-- The sample with its root's listing moved to the id table, whose words spell an entry `abcd`. -/
def strayImage : PlainImage :=
  { PlainImage.sample with
    inodes :=
      InodeRecord.encode ⟨0x1ED, 0, 0, 0, 1⟩ (.basicDir 23 2 27 0 1) ++
        InodeRecord.encode ⟨0x1A4, 0, 0, 0, 2⟩
          (.basicFile 96 SQUASHFS_INVALID_FRAG 0 3 [0x1000003])
    ids := [0, 0, 2, 32, 0x00030002, 0x64636261] }

theorem strayImage_lt : strayImage.bytes.length < wordSize := by decide +kernel

/-- The stray image, opened. -/
def stray : Filesystem where
  dev := Device.ofBytes strayImage.bytes strayImage_lt
  sb := strayImage.superblock
  comp := .gzip
  idTable := strayImage.ids
  fragments := []
  xattrIds := none
  exports := none
  dirTableEnd := 189

def strayRoot : Inode := InodeRecord.toInode ⟨0x1ED, 0, 0, 0, 1⟩ (.basicDir 23 2 27 0 1)

set_option maxRecDepth 10000 in
/-- A listing read from the id table is accepted. -/
theorem stray_listing_accepted :
    openImage .through .none (Device.ofBytes strayImage.bytes strayImage_lt) = .ok stray ∧
      Asking.exec (stray.answers .none) stray.rootInode = .ok strayRoot ∧
      Asking.exec (stray.answers .none) (stray.readDir strayRoot) =
        .ok [⟨[0x61, 0x62, 0x63, 0x64], 0x20, 2, 2⟩] ∧
      ¬ stray.FromDirectoryTable (stray.answers .none) strayRoot := by
  have hdir : Asking.exec (stray.answers .none) (stray.readDir strayRoot) =
      .ok [⟨[0x61, 0x62, 0x63, 0x64], 0x20, 2, 2⟩] := by decide +kernel
  refine ⟨rfl, by decide +kernel, hdir, fun h => ?_⟩
  have hblock : stray.answers .none (.block (stray.listingStart strayRoot)) =
      .ok (strayImage.idBlock, 215) := by decide +kernel
  have hfirst : stray.FirstBlockUnchecked (stray.answers .none) strayRoot :=
    ⟨by decide, by decide +kernel, _, _, hblock, by decide⟩
  obtain ⟨-, -, hcontrib, hout⟩ := hfirst.read (stray.tame_answers .none) (by decide)
  exact hout (h.accepted _ hdir _ hcontrib)

end Filesystem

end Squashfs
