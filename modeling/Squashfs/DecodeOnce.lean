import Squashfs.Cache
import Squashfs.File
import Squashfs.Foundation.Computed

/-!
# Each block decoded once

About `read_data_block` (`src/fs.rs:757-770`) below `read_file`. A file's blocks are decoded through
the data cache, keyed by the whole request. `request` is the request of a logical block, none when
the block is sparse, and a read asks for the requests of the blocks it overlaps, in order
(`asked_readFile`), so what it decodes is read off them.

**`decoded_once`**: a file read front to back by consecutive successful reads decodes each block
that is not sparse at most once, whatever the chunks, through a data cache with room for one block;
and with room for every different request made since the cache was resized, no block is decoded
twice in any order of reads over any files, unless its decoding fails.
-/

namespace Squashfs

open Foundation

/-- The reader's request for a data block. -/
def DataKey.toReq (key : DataKey) : Req := .data key.1 key.2.1 key.2.2

theorem DataKey.toReq_injective : Function.Injective DataKey.toReq := by
  rintro ⟨_, _, _⟩ ⟨_, _, _⟩ h
  cases h
  rfl

/-- The answer to a data block's request. -/
def DataKey.answer (f : ∀ q, Reply q) (key : DataKey) : Res Bytes := f key.toReq

namespace Filesystem

variable {f : ∀ q, Reply q} {fs : Filesystem} {inode : Inode}

/-! ## What a read asks for -/

/-- The request for logical block `i` of a file: none when it is sparse, the data block's own, or
the fragment block's for the tail. -/
def request (fs : Filesystem) (inode : Inode) (i : Nat) : Option DataKey :=
  match inode.blockSizes[i]? with
  | some sizeWord =>
    if (dataOnDiskSize sizeWord).toNat = 0 then none
    else some (blockOffset inode i, sizeWord, fs.blockLen inode i)
  | none =>
    if inode.fragmentIndex ≠ SQUASHFS_INVALID_FRAG then
      fs.fragments[inode.fragmentIndex.toNat]?.map fun frag =>
        (frag.start.toNat, frag.size, fs.sb.blockSize.toNat)
    else none

/-- The requests of a file's blocks, in order: its data blocks that are not sparse, and the
fragment block its tail lies in. -/
def blockRequests (fs : Filesystem) (inode : Inode) : List Req :=
  ((List.range (inode.blockSizes.length + 1)).filterMap (fs.request inode)).map DataKey.toReq

theorem asked_readDataBlock_bind {β : Type} {absOff : Nat} {sizeWord : UInt32} {maxOut : Nat}
    {k : Bytes → Prog β} (hk : ∀ block, Asking.asked f (k block) = []) :
    Asking.asked f (readDataBlock absOff sizeWord maxOut >>= k) =
      [.data absOff sizeWord maxOut] := by
  rw [Asking.asked_bind]
  split
  · rw [hk]
    rfl
  · rfl

theorem asked_readFullBlock (hgeo : inode.Geometry fs.sb) (hfile : inode.isRegularFile = true)
    {i : Nat} (hi : i < inode.blockSizes.length) :
    Asking.asked f (fs.readFullBlock inode i (blockOffsets inode)) =
      (fs.request inode i).toList.map DataKey.toReq := by
  have hinside := block_inside hgeo hfile hi
  have hsize := inode.fileSize.toNat_lt
  unfold readFullBlock request
  rw [Asking.asked_lift_bind (mul64_ok (Nat.lt_of_le_of_lt hinside hsize)),
    Asking.asked_lift_bind (sub64_ok hinside), Asking.asked_lift_bind (index_ok hi),
    List.getElem?_eq_getElem hi]
  dsimp only
  split
  · rfl
  · rw [Asking.asked_lift_bind (index_blockOffsets hi), asked_readDataBlock_bind]
    · rfl
    · intro block
      split <;> rfl

theorem asked_readFragmentTail (hi : inode.blockSizes[i]? = none)
    (hfrag : inode.fragmentIndex ≠ SQUASHFS_INVALID_FRAG) :
    Asking.asked f (fs.readFragmentTail inode) =
      (fs.request inode i).toList.map DataKey.toReq := by
  unfold readFragmentTail request
  rw [hi]
  dsimp only
  rw [if_pos hfrag]
  rcases hget : fs.fragments[inode.fragmentIndex.toNat]? with _ | frag
  · rfl
  · rw [Asking.asked_lift_bind (okOr_eq_ok.mpr rfl), asked_readDataBlock_bind]
    · rfl
    · intro block
      refine Asking.Within.asked_eq_nil (Asking.within_bind (Asking.within_lift _) fun _ _ =>
        Asking.within_bind (Asking.within_lift _) fun _ _ => Asking.within_bind
        (Asking.within_lift _) fun _ _ => Asking.within_ite (fun _ => Asking.within_throw _)
        fun _ => Asking.within_pure _)

/-- **Reading a logical block asks for its request**, if it has one. -/
theorem asked_readLogicalBlock (hgeo : inode.Geometry fs.sb) (hfile : inode.isRegularFile = true)
    (i : Nat) :
    Asking.asked f (fs.readLogicalBlock inode i (blockOffsets inode)) =
      (fs.request inode i).toList.map DataKey.toReq := by
  unfold readLogicalBlock
  split
  · rename_i hi
    exact asked_readFullBlock hgeo hfile hi
  · rename_i hi
    have hnone : inode.blockSizes[i]? = none := List.getElem?_eq_none (Nat.le_of_not_lt hi)
    by_cases hfrag : inode.fragmentIndex ≠ SQUASHFS_INVALID_FRAG
    · rw [if_pos ((hasFragment_iff hfile).mpr hfrag)]
      exact asked_readFragmentTail hnone hfrag
    · rw [if_neg (fun h => hfrag ((hasFragment_iff hfile).mp h))]
      unfold request
      rw [hnone]
      dsimp only
      rw [if_neg hfrag]
      rfl

/-- The request of a block that is there was answered. -/
theorem request_answered {i : Nat} {b : Bytes} (hb : fs.logicalBlock f inode i = some b)
    {key : DataKey} (hkey : fs.request inode i = some key) :
    ∃ block, f key.toReq = .ok block := by
  unfold request at hkey
  unfold logicalBlock at hb
  rcases hi : inode.blockSizes[i]? with _ | sizeWord
  · rw [hi] at hkey
    rw [if_neg (Nat.not_lt.mpr (List.getElem?_eq_none_iff.mp hi))] at hb
    dsimp only at hkey
    split at hkey
    · rename_i hfrag
      rw [if_pos hfrag] at hb
      obtain ⟨frag, hget, hb⟩ := Option.bind_eq_some_iff.mp hb
      obtain ⟨block, hblock, -⟩ := Option.bind_eq_some_iff.mp hb
      rw [hget] at hkey
      cases hkey
      exact ⟨block, toOption_eq_some.mp hblock⟩
    · cases hkey
  · rw [hi] at hkey
    rw [if_pos (List.getElem?_eq_some_iff.mp hi).1] at hb
    obtain ⟨_, hword, hb⟩ := Option.bind_eq_some_iff.mp hb
    rw [hi] at hword
    cases hword
    dsimp only at hkey
    split at hkey
    · cases hkey
    · rename_i hzero
      cases hkey
      rw [if_neg hzero] at hb
      obtain ⟨block, hblock, -⟩ := Option.bind_eq_some_iff.mp hb
      exact ⟨block, toOption_eq_some.mp hblock⟩

/-! ## Requests in order -/

/-- The requests of blocks of the file were asked for in order, each overlapping
`[start, stop)`. -/
def AsksInOrder (fs : Filesystem) (inode : Inode) (start stop : Nat) (asked : List Req) : Prop :=
  ∃ is : List Nat, asked = (is.filterMap (fs.request inode)).map DataKey.toReq ∧
    is.Pairwise (· ≤ ·) ∧
    ∀ i ∈ is, start / fs.sb.blockSize.toNat ≤ i ∧ i * fs.sb.blockSize.toNat < stop ∧
      i < inode.blockSizes.length + 1

theorem asksInOrder_nil (start stop : Nat) : fs.AsksInOrder inode start stop [] :=
  ⟨[], rfl, List.Pairwise.nil, fun _ hi => absurd hi List.not_mem_nil⟩

/-- The block at a position of the file. -/
theorem asksInOrder_position (hgeo : inode.Geometry fs.sb) (hfile : inode.isRegularFile = true)
    {p stop : Nat} (h : p < stop) (hin : p < inode.fileSize.toNat) :
    fs.AsksInOrder inode p stop
      ((fs.request inode (p / fs.sb.blockSize.toNat)).toList.map DataKey.toReq) := by
  refine ⟨[p / fs.sb.blockSize.toNat], ?_, List.pairwise_singleton _ _, fun i hi => ?_⟩
  · rcases hr : fs.request inode (p / fs.sb.blockSize.toNat) with _ | key
    · rw [List.filterMap_cons_none hr]
      rfl
    · rw [List.filterMap_cons_some hr]
      rfl
  · obtain rfl := List.mem_singleton.mp hi
    exact ⟨Nat.le_refl _, Nat.lt_of_le_of_lt (Nat.div_mul_le_self _ _) h,
      index_le_of_inside hgeo hfile (block_start_lt hin)⟩

theorem AsksInOrder.subset {start stop : Nat} {asked : List Req}
    (h : fs.AsksInOrder inode start stop asked) : asked ⊆ fs.blockRequests inode := by
  obtain ⟨is, rfl, -, hin⟩ := h
  refine List.map_subset _ fun key hkey => ?_
  obtain ⟨i, hi, hkey⟩ := List.mem_filterMap.mp hkey
  exact List.mem_filterMap.mpr ⟨i, List.mem_range.mpr (hin i hi).2.2, hkey⟩

theorem AsksInOrder.append {start mid stop : Nat} {asked asked' : List Req}
    (h : fs.AsksInOrder inode start mid asked) (h' : fs.AsksInOrder inode mid stop asked')
    (hle : start ≤ mid) (hle' : mid ≤ stop) :
    fs.AsksInOrder inode start stop (asked ++ asked') := by
  obtain ⟨is, rfl, hsort, hin⟩ := h
  obtain ⟨is', rfl, hsort', hin'⟩ := h'
  refine ⟨is ++ is', by rw [List.filterMap_append, List.map_append],
    List.pairwise_append.mpr ⟨hsort, hsort', fun i hi j hj => ?_⟩, fun i hi => ?_⟩
  · have hbefore : i ≤ mid / fs.sb.blockSize.toNat :=
      (Nat.le_div_iff_mul_le fs.sb.blockSize_pos).mpr (Nat.le_of_lt (hin i hi).2.1)
    exact hbefore.trans (hin' j hj).1
  · rcases List.mem_append.mp hi with hi | hi
    · exact ⟨(hin i hi).1, Nat.lt_of_lt_of_le (hin i hi).2.1 hle', (hin i hi).2.2⟩
    · exact ⟨(Nat.div_le_div_right hle).trans (hin' i hi).1, (hin' i hi).2⟩

/-! ## The read loop -/

section Loop

variable {offset toRead : Nat}

/-- What a turn of the loop asks for. -/
theorem asked_readChunk (hgeo : inode.Geometry fs.sb) (hfile : inode.isRegularFile = true)
    {written : Nat} {buf : Bytes} (hw : written < toRead)
    (hend : offset + toRead ≤ inode.fileSize.toNat) :
    Stateful.asked f (fs.readChunk inode (blockOffsets inode) offset toRead written) buf =
      (fs.request inode ((offset + written) / fs.sb.blockSize.toNat)).toList.map DataKey.toReq := by
  have hsize := inode.fileSize.toNat_lt
  have hne : fs.sb.blockSize.toNat ≠ 0 := Nat.pos_iff_ne_zero.mp fs.sb.blockSize_pos
  unfold readChunk
  rw [Stateful.asked_lift_bind (add64_ok (by unfold wordSize; omega)),
    Stateful.asked_lift_bind (div64_ok hne), Stateful.asked_lift_bind (rem64_ok hne),
    Stateful.asked_bind, Stateful.asked_ofAsking, asked_readLogicalBlock hgeo hfile]
  split
  · rename_i block buf' _
    refine (congrArg _ (Stateful.ConfinedAt.asked_eq_nil (I := fun _ => True) ?_)).trans
      (List.append_nil _)
    exact Stateful.confinedAt_lift_bind trivial fun bytes _ => Stateful.confinedAt_ite
      (fun _ => Stateful.confinedAt_throw _) fun _ => Stateful.confinedAt_lift_bind trivial
      fun src _ => Stateful.confinedAt_get_bind trivial (Stateful.confinedAt_lift_bind trivial
      fun buf' _ => Stateful.confinedAt_bind (Stateful.confinedAt_set trivial) fun _ _ _ _ =>
      Stateful.confinedAt_lift trivial _)
  · exact List.append_nil _

/-- **The loop asks for the requests of the blocks it overlaps**, in order. -/
theorem asked_readLoop (hf : Tame f) (hgeo : inode.Geometry fs.sb)
    (hfile : inode.isRegularFile = true) (hend : offset + toRead ≤ inode.fileSize.toNat)
    (turns : Nat) {written : Nat} {buf : Bytes} (hbuf : toRead ≤ buf.length) :
    fs.AsksInOrder inode (offset + written) (offset + toRead)
      (Stateful.asked f (fs.readLoop inode (blockOffsets inode) offset toRead turns written)
        buf) := by
  induction turns generalizing written buf with
  | zero =>
    unfold readLoop
    split <;> exact asksInOrder_nil _ _
  | succ turns ih =>
    unfold readLoop
    by_cases hw : written < toRead
    · rw [if_pos hw]
      have hasked := @asked_readChunk f _ _ _ _ hgeo hfile written buf hw hend
      rcases hb : fs.logicalBlock f inode ((offset + written) / fs.sb.blockSize.toNat) with _ | b
      · obtain ⟨e, he⟩ : ∃ e, Stateful.exec f
            (fs.readChunk inode (blockOffsets inode) offset toRead written) buf =
              (.error (.err e), buf) := readChunk_err hf hgeo hfile hw hend hb
        rw [Stateful.asked_bind_error he, hasked]
        exact asksInOrder_position hgeo hfile (by omega) (by omega)
      · have hpos : 0 < fs.chunkLen inode offset toRead written := chunkLen_pos hw hend
        have hle : fs.chunkLen inode offset toRead written ≤ toRead - written := chunkLen_le
        obtain ⟨hlen, hchunk⟩ := readChunk_ok hgeo hfile hw hend hbuf hb
        rw [Stateful.asked_bind_ok hchunk, hasked]
        generalize fs.chunkLen inode offset toRead written = n at *
        have hbuf' : toRead ≤ (paste buf written
            (((fs.fileBytes f inode).drop (offset + written)).take n)).length := by
          rw [paste_length (by omega)]
          exact hbuf
        have hrest := @ih (written + n) _ hbuf'
        rw [← Nat.add_assoc] at hrest
        have hhere : offset + written < offset + written + n := by omega
        exact (asksInOrder_position hgeo hfile hhere (by omega)).append hrest (by omega) (by omega)
    · rw [if_neg hw]
      exact asksInOrder_nil _ _

end Loop

/-- **A read asks for the requests of the blocks it overlaps**, in order. -/
theorem asked_readFile (hf : Tame f) (hgeo : inode.Geometry fs.sb) (offset : UInt64)
    (buf : Bytes) :
    fs.AsksInOrder inode offset.toNat
      (offset.toNat + min buf.length (inode.fileSize.toNat - offset.toNat))
      (Stateful.asked f (fs.readFile inode offset) buf) := by
  unfold readFile readFileWithOffsets
  by_cases hfile : inode.isRegularFile = true
  · rw [if_neg (not_not_intro hfile), Stateful.asked_get_bind]
    split
    · exact asksInOrder_nil _ _
    · rename_i hinside
      rw [not_or, UInt64.not_le, UInt64.lt_iff_toNat_lt] at hinside
      rw [Stateful.asked_lift_bind (sub64_ok (Nat.le_of_lt hinside.1))]
      exact asked_readLoop hf hgeo hfile (by omega) _ (Nat.min_le_left _ _)
  · rw [if_pos hfile]
    exact asksInOrder_nil _ _

/-- A read asks for nothing when there is nothing to read or nowhere to put it. -/
theorem asked_readFile_nothing {offset : UInt64} {buf : Bytes}
    (h : inode.isRegularFile = true → inode.fileSize ≤ offset ∨ buf = []) :
    Stateful.asked f (fs.readFile inode offset) buf = [] := by
  unfold readFile readFileWithOffsets
  by_cases hfile : inode.isRegularFile = true
  · rw [if_neg (not_not_intro hfile), Stateful.asked_get_bind, if_pos (by simpa using h hfile)]
    rfl
  · rw [if_pos hfile]
    rfl

/-- **A read that gives a count gives all there is**, and everything it asked for was answered. -/
theorem readFile_count (hf : Tame f) (hgeo : inode.Geometry fs.sb) {offset : UInt64}
    {buf : Bytes} {n : Nat}
    (h : (Stateful.exec f (fs.readFile inode offset) buf).1 = .ok n) :
    n = min buf.length (inode.fileSize.toNat - offset.toNat) ∧
      ∀ q ∈ Stateful.asked f (fs.readFile inode offset) buf, ∃ v, f q = .ok v := by
  by_cases hfile : inode.isRegularFile = true
  · by_cases hnil : inode.fileSize ≤ offset ∨ buf = []
    · rw [readFile_nothing hfile hnil] at h
      rw [asked_readFile_nothing fun _ => hnil]
      cases h
      refine ⟨?_, fun q hq => absurd hq List.not_mem_nil⟩
      rcases hnil with hle | rfl
      · rw [Nat.sub_eq_zero_of_le (UInt64.le_iff_toNat_le.mp hle), Nat.min_zero]
      · rw [List.length_nil, Nat.zero_min]
    · rw [not_or, UInt64.not_le] at hnil
      obtain ⟨hlt, hbuf⟩ := hnil
      by_cases hav : fs.Available f inode offset.toNat
          (offset.toNat + min buf.length (inode.fileSize.toNat - offset.toNat))
      · rw [readFile_ok hgeo hfile hlt hbuf rfl hav] at h
        cases h
        refine ⟨rfl, fun q hq => ?_⟩
        obtain ⟨is, hasked, -, hin⟩ := fs.asked_readFile hf hgeo offset buf
        rw [hasked] at hq
        obtain ⟨key, hkey, rfl⟩ := List.mem_map.mp hq
        obtain ⟨i, hi, hkey⟩ := List.mem_filterMap.mp hkey
        obtain ⟨hlo, hhi, -⟩ := hin i hi
        have hover := (Nat.div_lt_iff_lt_mul fs.sb.blockSize_pos).mp (Nat.lt_succ_of_le hlo)
        obtain ⟨b, hb⟩ := Option.ne_none_iff_exists'.mp (hav i ⟨hhi, hover⟩)
        exact request_answered hb hkey
      · obtain ⟨e, he⟩ := readFile_err hf hgeo hfile hlt hbuf rfl hav
        rw [he] at h
        cases h
  · unfold readFile readFileWithOffsets at h
    rw [if_pos hfile] at h
    cases h

/-! ## Reads through the caches -/

/-- A file read through the caches: what was read and what that gave, the blocks it asked for and
those it decoded. -/
structure ReadCall where
  inode : Inode
  offset : UInt64
  buf : Bytes
  result : Res Nat
  requests : List Req
  decoded : List Req

section Reads

variable {σ τ : Type} (M : BoundedMap Nat (Bytes × Nat) σ) (D : BoundedMap DataKey Bytes τ)
  (f : ∀ q, Reply q) (fs : Filesystem)

/-- `read_file` through the caches, with nobody else at them. -/
def readThrough (c : Caches σ τ) (inode : Inode) (offset : UInt64) (buf : Bytes) :
    Served Req (Caches σ τ) (Res Nat × Bytes) :=
  (StateT.run (fs.readFile inode offset).run buf).serve (cacheMemo M D) f c

/-- The record of a read. -/
def readCall (c : Caches σ τ) (inode : Inode) (offset : UInt64) (buf : Bytes) : ReadCall :=
  let r := readThrough M D f fs c inode offset buf
  ⟨inode, offset, buf, r.value.1, r.asked, r.computed⟩

/-- File reads one after the other, through the caches. Between them anything may happen that
leaves the data cache alone, and the metadata cache with true answers. -/
inductive Reads : Caches σ τ → List ReadCall → Caches σ τ → Prop
  | nil (c : Caches σ τ) : Reads c [] c
  | read {c c' : Caches σ τ} {calls : List ReadCall} (inode : Inode) (offset : UInt64)
      (buf : Bytes) (h : Reads (readThrough M D f fs c inode offset buf).memory calls c') :
      Reads c (readCall M D f fs c inode offset buf :: calls) c'
  | other {c c' : Caches σ τ} {calls : List ReadCall} (metaCache : Option σ)
      (hs : Sound (cacheMemo M D) f { c with metaCache := metaCache })
      (h : Reads { c with metaCache := metaCache } calls c') : Reads c calls c'

/-- Consecutive reads of one file that all give a count: each starts where the one before it
ended, the first at `start`, and the last ends at `stop`. -/
inductive FrontToBack (inode : Inode) : Nat → List ReadCall → Nat → Prop
  | nil (p : Nat) : FrontToBack inode p [] p
  | read {p n stop : Nat} {call : ReadCall} {calls : List ReadCall} (hinode : call.inode = inode)
      (hoffset : call.offset.toNat = p) (hbuf : call.buf ≠ []) (hn : call.result = .ok n)
      (h : FrontToBack inode (p + n) calls stop) : FrontToBack inode p (call :: calls) stop

variable {M D f fs}

/-- A data block's request goes to the data cache alone. -/
theorem after_dataCache (c : Caches σ τ) (key : DataKey) :
    (cacheMemo M D).after f c key.toReq =
      { c with dataCache := D.memo.after (DataKey.answer f) c.dataCache key } := by
  unfold Memo.after
  dsimp only [cacheMemo, Caches.get, Caches.insert, BoundedMap.memo, DataKey.toReq,
    DataKey.answer]
  rcases D.getOn c.dataCache (key.1, key.2.1, key.2.2) with ⟨_ | v, t⟩
  · rcases f (.data key.1 key.2.1 key.2.2) with e | v
    · rfl
    · rfl
  · rfl

theorem through_dataCache (c : Caches σ τ) (keys : List DataKey) :
    (cacheMemo M D).through f c (keys.map DataKey.toReq) =
      { c with dataCache := D.memo.through (DataKey.answer f) c.dataCache keys } := by
  induction keys generalizing c with
  | nil => rfl
  | cons key keys ih =>
    rw [List.map_cons, Memo.through, List.foldl_cons, after_dataCache]
    exact ih _

/-- **What is decoded is what the data cache alone computes.** -/
theorem computed_dataCache (c : Caches σ τ) (keys : List DataKey) :
    (cacheMemo M D).computed f c (keys.map DataKey.toReq) =
      (D.memo.computed (DataKey.answer f) c.dataCache keys).map DataKey.toReq := by
  induction keys generalizing c with
  | nil => rfl
  | cons key keys ih =>
    have hsame : ((cacheMemo M D).get c key.toReq).1.isSome =
        (D.memo.get c.dataCache key).1.isSome := rfl
    rw [List.map_cons]
    by_cases h : (D.memo.get c.dataCache key).1.isSome
    · rw [computed_hit h, computed_hit (hsame ▸ h), after_dataCache, ih]
    · rw [computed_miss h, computed_miss (hsame ▸ h), after_dataCache, ih]
      rfl

/-- A read through caches that hold true answers is the read without them, with its log. -/
theorem readThrough_eq {c : Caches σ τ} (hs : Sound (cacheMemo M D) f c) (inode : Inode)
    (offset : UInt64) (buf : Bytes) :
    readThrough M D f fs c inode offset buf =
      ⟨Stateful.exec f (fs.readFile inode offset) buf,
        (cacheMemo M D).through f c (Stateful.asked f (fs.readFile inode offset) buf),
        Stateful.asked f (fs.readFile inode offset) buf,
        (cacheMemo M D).computed f c (Stateful.asked f (fs.readFile inode offset) buf)⟩ :=
  serve_eq hs _

/-- What a list of reads gave and asked for is what each does without the caches, and what it
decoded is what the data cache alone computes of it. -/
theorem Reads.log (hf : Tame f) {c c' : Caches σ τ} {calls : List ReadCall}
    (h : Reads M D f fs c calls c') (hs : Sound (cacheMemo M D) f c)
    (hgeo : ∀ call ∈ calls, call.inode.Geometry fs.sb) :
    (∀ call ∈ calls,
      call.result = (Stateful.exec f (fs.readFile call.inode call.offset) call.buf).1 ∧
        call.requests = Stateful.asked f (fs.readFile call.inode call.offset) call.buf ∧
        call.decoded ⊆ call.requests) ∧
      ∃ keys : List DataKey, calls.flatMap (·.requests) = keys.map DataKey.toReq ∧
        calls.flatMap (·.decoded) =
          (D.memo.computed (DataKey.answer f) c.dataCache keys).map DataKey.toReq := by
  induction h with
  | nil c => exact ⟨fun _ h => absurd h List.not_mem_nil, [], rfl, rfl⟩
  | @read c c' calls inode offset buf h ih =>
    have hinode : inode.Geometry fs.sb := hgeo _ List.mem_cons_self
    obtain ⟨is, hasked, -⟩ := fs.asked_readFile hf hinode offset buf
    rw [readThrough_eq hs, hasked] at ih
    obtain ⟨hcalls, keys, hrequests, hdecoded⟩ :=
      ih (hs.through _) fun call hcall => hgeo call (List.mem_cons_of_mem _ hcall)
    rw [through_dataCache] at hdecoded
    refine ⟨fun call hcall => ?_, is.filterMap (fs.request inode) ++ keys, ?_, ?_⟩
    · rcases List.mem_cons.mp hcall with rfl | hcall
      · unfold readCall
        rw [readThrough_eq hs]
        exact ⟨rfl, rfl, computed_subset⟩
      · exact hcalls call hcall
    · rw [List.flatMap_cons, hrequests, List.map_append, ← hasked]
      unfold readCall
      rw [readThrough_eq hs]
    · rw [List.flatMap_cons, hdecoded, computed_append, List.map_append]
      unfold readCall
      rw [readThrough_eq hs, hasked, computed_dataCache]
  | other metaCache hs' h ih => exact ih hs' hgeo

theorem FrontToBack.inode_eq {inode : Inode} {start stop : Nat} {calls : List ReadCall}
    (h : FrontToBack inode start calls stop) {call : ReadCall} (hcall : call ∈ calls) :
    call.inode = inode := by
  induction h with
  | nil => exact absurd hcall List.not_mem_nil
  | read hinode _ _ _ _ ih =>
    rcases List.mem_cons.mp hcall with rfl | hcall
    · exact hinode
    · exact ih hcall

/-- **Reads from front to back ask for the blocks they overlap in order**, and are answered. -/
theorem FrontToBack.requests (hf : Tame f) {inode : Inode} (hgeo : inode.Geometry fs.sb)
    {start stop : Nat} {calls : List ReadCall} (h : FrontToBack inode start calls stop)
    (hcalls : ∀ call ∈ calls,
      call.result = (Stateful.exec f (fs.readFile call.inode call.offset) call.buf).1 ∧
        call.requests = Stateful.asked f (fs.readFile call.inode call.offset) call.buf ∧
        call.decoded ⊆ call.requests) :
    start ≤ stop ∧ fs.AsksInOrder inode start stop (calls.flatMap (·.requests)) ∧
      ∀ q ∈ calls.flatMap (·.requests), ∃ v, f q = .ok v := by
  induction h with
  | nil p => exact ⟨Nat.le_refl _, asksInOrder_nil _ _, fun _ h => absurd h List.not_mem_nil⟩
  | @read p n stop call calls hinode hoffset hbuf hn h ih =>
    obtain ⟨hle, horder, hanswer⟩ := ih fun call hcall => hcalls call (List.mem_cons_of_mem _ hcall)
    obtain ⟨hresult, hrequests, -⟩ := hcalls call List.mem_cons_self
    rw [hinode] at hresult hrequests
    obtain ⟨hcount, hanswered⟩ := readFile_count hf hgeo (hresult.symm.trans hn)
    have hhere := fs.asked_readFile hf hgeo call.offset call.buf
    rw [← hrequests, ← hcount, hoffset] at hhere
    rw [← hrequests] at hanswered
    rw [List.flatMap_cons]
    refine ⟨by omega, hhere.append horder (Nat.le_add_right _ _) hle, fun q hq => ?_⟩
    rcases List.mem_append.mp hq with hq | hq
    · exact hanswered q hq
    · exact hanswer q hq

end Reads

/-! ## Decoded once -/

/-- A block is decoded once: what `fs` promises of file reads through a data cache that was just
resized to `capacity`. -/
structure DecodesOnce {σ τ : Type} (M : BoundedMap Nat (Bytes × Nat) σ)
    (D : BoundedMap DataKey Bytes τ) (codecs : Codecs) (fs : Filesystem) (c : Caches σ τ)
    (capacity : Nat) : Prop where
  /-- One file from front to back: each block that is not sparse at most once, in order. -/
  sequential : ∀ {inodeRef inode}, 1 ≤ capacity →
    Asking.exec (fs.answers codecs) (fs.readInode inodeRef) = .ok inode → ∀ {calls c' stop},
      Reads M D (fs.answers codecs) fs (c.setCapacity M D (.dataCache capacity)) calls c' →
      FrontToBack inode 0 calls stop →
        (calls.flatMap (·.decoded)).Sublist (fs.blockRequests inode)
  /-- Any files in any order, with room for every different request: no request twice unless its
  decoding fails, and none that is not of a block. -/
  roomy : ∀ {calls c'},
    Reads M D (fs.answers codecs) fs (c.setCapacity M D (.dataCache capacity)) calls c' →
    (∀ call ∈ calls, ∃ inodeRef,
      Asking.exec (fs.answers codecs) (fs.readInode inodeRef) = .ok call.inode) →
    (calls.flatMap (·.requests)).toFinset.card ≤ capacity →
      (∀ q, (∃ block, fs.answers codecs q = .ok block) →
        (calls.flatMap (·.decoded)).count q ≤ 1) ∧
      ((∀ call ∈ calls, ∃ n, call.result = .ok n) → (calls.flatMap (·.decoded)).Nodup) ∧
      ∀ call ∈ calls, ∀ q ∈ call.decoded, q ∈ fs.blockRequests call.inode

/-- **Each block is decoded once.** -/
theorem decoded_once {σ τ : Type} (M : BoundedMap Nat (Bytes × Nat) σ)
    {D : BoundedMap DataKey Bytes τ} (R : D.Recency) (codecs : Codecs) (fs : Filesystem)
    {c : Caches σ τ} (hs : Sound (cacheMemo M D) (fs.answers codecs) c) (capacity : Nat) :
    DecodesOnce M D codecs fs c capacity := by
  have hf := fs.tame_answers codecs
  have hs' : Sound (cacheMemo M D) (fs.answers codecs) (c.setCapacity M D (.dataCache capacity)) :=
    fun q v hv => hs q v ((cacheMemo M D).holds_after_admin hv)
  constructor
  · intro inodeRef inode hcap hread calls c' stop hreads hfront
    have hgeo := Inode.geometry_of_read hf hread
    obtain ⟨hcalls, keys, hrequests, hdecoded⟩ := hreads.log hf hs' fun call hcall => by
      rw [hfront.inode_eq hcall]
      exact hgeo
    obtain ⟨-, ⟨is, hasked, hsort, hin⟩, hanswer⟩ := hfront.requests hf hgeo hcalls
    obtain rfl : keys = is.filterMap (fs.request inode) :=
      DataKey.toReq_injective.list_map (hrequests.symm.trans hasked)
    rw [hdecoded]
    refine (R.computed_sized_sublist hcap hsort (fun i hi => (hin i hi).2.2) ?_).map _
    intro i hi key hkey
    rw [hasked] at hanswer
    exact hanswer _ (List.mem_map_of_mem (List.mem_filterMap.mpr ⟨i, hi, hkey⟩))
  · intro calls c' hreads hinodes hroom
    have hgeo : ∀ call ∈ calls, call.inode.Geometry fs.sb := fun call hcall => by
      obtain ⟨inodeRef, hread⟩ := hinodes call hcall
      exact Inode.geometry_of_read hf hread
    obtain ⟨hcalls, keys, hrequests, hdecoded⟩ := hreads.log hf hs' hgeo
    have hcount : ∀ q, (∃ block, fs.answers codecs q = .ok block) →
        (calls.flatMap (·.decoded)).count q ≤ 1 := by
      intro q hq
      rw [hdecoded]
      by_cases hmem : ∃ key : DataKey, key.toReq = q
      · obtain ⟨key, rfl⟩ := hmem
        have hsame : (keys.map DataKey.toReq).toFinset = keys.toFinset.image DataKey.toReq := by
          ext
          simp
        rw [hrequests, hsame, Finset.card_image_of_injective _ DataKey.toReq_injective] at hroom
        have hanswer : ∃ block, DataKey.answer (fs.answers codecs) key = .ok block := hq
        exact (@List.count_map_of_injective _ _ instBEqOfDecidableEq _ _ _ _ _
          DataKey.toReq_injective key).trans_le (R.count_computed_sized hroom hanswer)
      · rw [List.count_eq_zero_of_not_mem]
        · exact Nat.zero_le _
        · intro hq
          obtain ⟨key, -, hkey⟩ := List.mem_map.mp hq
          exact hmem ⟨key, hkey⟩
    refine ⟨hcount, fun hok => List.nodup_iff_count_le_one.mpr fun q => ?_, fun call hcall q hq => ?_⟩
    · by_cases hq : q ∈ calls.flatMap (·.decoded)
      · obtain ⟨call, hcall, hq⟩ := List.mem_flatMap.mp hq
        obtain ⟨hresult, hasked, hsubset⟩ := hcalls call hcall
        obtain ⟨n, hn⟩ := hok call hcall
        have hanswered := (readFile_count hf (hgeo call hcall) (hresult.symm.trans hn)).2
        rw [← hasked] at hanswered
        exact hcount q (hanswered q (hsubset hq))
      · rw [List.count_eq_zero_of_not_mem hq]
        exact Nat.zero_le _
    · obtain ⟨-, hasked, hsubset⟩ := hcalls call hcall
      exact (fs.asked_readFile hf (hgeo call hcall) call.offset call.buf).subset
        (hasked ▸ hsubset hq)

/-- A file with a hole read in three chunks through caches of one block each: each of its two
stored blocks and the block of its fragment is decoded for the chunk that comes to it, and the
second stored block is found for the last chunk. -/
theorem decoded_once_sample :
    let M := BoundedMap.lru Nat (Bytes × Nat)
    let D := BoundedMap.lru DataKey Bytes
    ∃ calls c', Reads M D (mixed.answers .none) mixed (Caches.new M D 1 1) calls c' ∧
      FrontToBack mixedFile 0 calls 12293 ∧
      calls.map (·.requests) = [[.data 150 0x1001000 4096], [.data 4246 0x1001000 4096],
        [.data 4246 0x1001000 4096, .data 142 0x1000008 4096]] ∧
      calls.map (·.decoded) = [[.data 150 0x1001000 4096], [.data 4246 0x1001000 4096],
        [.data 142 0x1000008 4096]] ∧
      (calls.flatMap (·.decoded)).Sublist (mixed.blockRequests mixedFile) := by
  intro M D
  let c := Caches.new M D 1 1
  let f := mixed.answers .none
  let buf : Bytes := List.replicate 5000 0
  let c₁ := (readThrough M D f mixed c mixedFile 0 buf).memory
  let c₂ := (readThrough M D f mixed c₁ mixedFile 5000 buf).memory
  let calls := [readCall M D f mixed c mixedFile 0 buf, readCall M D f mixed c₁ mixedFile 5000 buf,
    readCall M D f mixed c₂ mixedFile 10000 buf]
  have hsays : calls.map (fun call => (call.result, call.requests, call.decoded)) =
      [(.ok 5000, [.data 150 0x1001000 4096], [.data 150 0x1001000 4096]),
        (.ok 5000, [.data 4246 0x1001000 4096], [.data 4246 0x1001000 4096]),
        (.ok 2293, [.data 4246 0x1001000 4096, .data 142 0x1000008 4096],
          [.data 142 0x1000008 4096])] := by decide +kernel
  have hreads : Reads M D f mixed c calls _ := .read _ _ _ (.read _ _ _ (.read _ _ _ (.nil _)))
  simp only [calls, List.map_cons, List.map_nil, List.cons.injEq, Prod.mk.injEq, and_true] at hsays
  obtain ⟨⟨hresult, hasked, hdecoded⟩, ⟨hresult₁, hasked₁, hdecoded₁⟩, hresult₂, hasked₂,
    hdecoded₂⟩ := hsays
  have hfront : FrontToBack mixedFile 0 calls 12293 :=
    .read rfl rfl (List.cons_ne_nil _ _) hresult (.read rfl rfl (List.cons_ne_nil _ _) hresult₁
      (.read rfl rfl (List.cons_ne_nil _ _) hresult₂ (.nil 12293)))
  have honce := decoded_once M (BoundedMap.lruRecency DataKey Bytes) .none mixed
    (sound_new M D f 1 0) 1
  refine ⟨calls, _, hreads, hfront, ?_, ?_, honce.sequential (Nat.le_refl 1) mixed_read hreads hfront⟩
  · simp only [calls, List.map_cons, List.map_nil, hasked, hasked₁, hasked₂]
  · simp only [calls, List.map_cons, List.map_nil, hdecoded, hdecoded₁, hdecoded₂]

end Filesystem

end Squashfs
