import Squashfs.Capi
import Squashfs.Foundation.Shared
import Squashfs.Session

/-!
# Reading a file through the C ABI

Model of `fs_squashfs_read_file` and `resolve_for_read` (`src/capi.rs:201-259`, 750-799). The entry
point names its file on every call. The handle keeps the path it resolved last with what it resolved
to, under a lock, and a call passes no more of its caller's buffer on than the file has bytes.

**`read_cache_invisible`**: whatever calls any threads make on the handle, every finished read gave
and wrote what a read gives and writes that resolves its path afresh and passes its whole buffer on.
The lock's contract is that it guards a path's own resolution (`Fresh`).

Out of scope: the count of resolutions that the tests read (243-244, 261-265).
-/

namespace Squashfs

open Foundation Filesystem

namespace Capi

/-! ## The entry point -/

/-- A path that was resolved, and its file's block map. -/
structure ResolvedFile where
  path : Bytes
  inode : Inode
  blockOffsets : List Nat
  deriving Repr, DecidableEq

/-- What a read asks of its handle: a request of the reader, or the lock of the path read last,
taken with what it guards and given back with what is left there. -/
inductive HandleReq where
  | reader (q : Req)
  | lock
  | unlock (last : Option ResolvedFile)

/-- The answers of a handle. -/
abbrev HandleReply : HandleReq → Type
  | .reader q => Reply q
  | .lock => Option ResolvedFile
  | .unlock _ => Unit

/-- Programs over a handle. -/
abbrev HandleM (α : Type) := Query HandleReq HandleReply α

/-- Ask the reader, through the handle. -/
def askReader (q : Req) : HandleM (Reply q) := Query.query (HandleReq.reader q)

/-- Take the lock of the path read last. -/
def lockLast : HandleM (Option ResolvedFile) := Query.query HandleReq.lock

/-- Give the lock back. -/
def unlockLast (last : Option ResolvedFile) : HandleM Unit := Query.query (HandleReq.unlock last)

/-- `resolve_for_read`: the path resolved, from the last read's when it is the same path. The lock
is held over the lookup, and given back on every way out. -/
def resolveForRead (fs : Filesystem) (path : Bytes) :
    Asking HandleReq HandleReply Error ResolvedFile := ExceptT.mk do
  let last ← lockLast
  match last.filter (·.path == path) with
  | some cached =>
    unlockLast last
    return .ok cached
  | none =>
    match ← (fs.lookupPathBytes path).run.through askReader with
    | .ok inode =>
      let offsets := if inode.isRegularFile then Filesystem.blockOffsets inode else []
      let resolved : ResolvedFile := ⟨path, inode, offsets⟩
      unlockLast (some resolved)
      return .ok resolved
    | .error e =>
      unlockLast last
      return .error e

/-- A method run on the first `n` bytes of the memory behind a pointer. -/
def writing (memory : Bytes) (n : Nat) (m : BufM Nat) : Body (Option Bytes) Nat :=
  ExceptT.mk (fun _ => do
    let r ← StateT.run m.run (memory.take n)
    return (mapErr Error.toErrno r.1, some (r.2 ++ memory.drop n)) :
    StateT (Option Bytes) (Query Req Reply) (Outcome Nat Nat))

def readFileBody (fs : Option Filesystem) (path : Option Bytes) (offset length : UInt64) :
    Stateful HandleReq HandleReply Nat (Option Bytes) Int := do
  match fs, path, ← get with
  | some fs, some path, some memory =>
    let resolved ← Stateful.ofAsking
      ((resolveForRead fs (cstrToBytes path)).mapErr Error.toErrno)
    let inode := resolved.inode
    if ¬ inode.isRegularFile then throw (.err EINVAL)
    else
      let length := min (min length.toNat inode.fileSize.toNat) (wordSize - 1)
      let n ← (writing memory length
        (fs.readFileWithOffsets inode resolved.blockOffsets offset)).through askReader
      return asI64 n
  | _, _, _ => throw (.err EINVAL)

/-- What a read gives, and the memory it leaves. -/
abbrev ReadResult := Option (Report Int) × Option Bytes

/-- `fs_squashfs_read_file`. -/
def readFile (fs : Option Filesystem) (path : Option Bytes) (offset length : UInt64) :
    Option Bytes → HandleM ReadResult :=
  ffiGuard (-1) (readFileBody fs path offset length)

/-! ## The read without the handle's memory -/

def readFileAfreshBody (fs : Option Filesystem) (path : Option Bytes) (offset length : UInt64) :
    Body (Option Bytes) Int := do
  match fs, path, ← get with
  | some fs, some path, some memory =>
    let inode ← calling (fs.lookupPathBytes (cstrToBytes path))
    if ¬ inode.isRegularFile then throw (.err EINVAL)
    else
      let n ← writing memory length.toNat (fs.readFile inode offset)
      return (n : Int)
  | _, _, _ => throw (.err EINVAL)

/-- The read that resolves its path afresh, builds the block map again and reads into all of the
caller's buffer. Its count is the number of bytes itself. -/
def readFileAfresh (fs : Option Filesystem) (path : Option Bytes) (offset length : UInt64) :
    Option Bytes → EntryPoint (Option Bytes) Int :=
  ffiGuard (-1) (readFileAfreshBody fs path offset length)

/-! ## The clamp -/

section Clamp

variable {f : ∀ q, Reply q} {α β : Type} {n : Nat}

/-- A method uses its buffer's first `n` bytes at most. -/
def Framed (f : ∀ q, Reply q) (n : Nat) (m : BufM α) : Prop :=
  ∀ buf tail, n ≤ buf.length →
    Stateful.exec f m (buf ++ tail) =
        ((Stateful.exec f m buf).1, (Stateful.exec f m buf).2 ++ tail) ∧
      (Stateful.exec f m buf).2.length = buf.length

theorem framed_lift (x : Res α) : Framed f n (liftM x : BufM α) := fun _ _ _ => ⟨rfl, rfl⟩

theorem framed_throw (e : Fail Error) : Framed f n (throw e : BufM α) := fun _ _ _ => ⟨rfl, rfl⟩

theorem framed_pure (a : α) : Framed f n (pure a : BufM α) := fun _ _ _ => ⟨rfl, rfl⟩

theorem framed_lift_bind {x : Res α} {g : α → BufM β} (hg : ∀ a, x = .ok a → Framed f n (g a)) :
    Framed f n ((liftM x : BufM α) >>= g) := by
  intro buf tail hn
  rw [Stateful.exec_bind, Stateful.exec_bind, Stateful.exec_lift, Stateful.exec_lift]
  rcases x with e | a
  · exact ⟨rfl, rfl⟩
  · exact hg a rfl buf tail hn

theorem framed_ofAsking_bind {m : Prog α} {g : α → BufM β} (hg : ∀ a, Framed f n (g a)) :
    Framed f n ((Stateful.ofAsking m : BufM α) >>= g) := by
  intro buf tail hn
  rw [Stateful.exec_bind, Stateful.exec_bind, Stateful.exec_ofAsking, Stateful.exec_ofAsking]
  rcases Asking.exec f m with e | a
  · exact ⟨rfl, rfl⟩
  · exact hg a buf tail hn

theorem Framed.bind {m : BufM α} {g : α → BufM β} (hm : Framed f n m)
    (hg : ∀ a, Framed f n (g a)) : Framed f n (m >>= g) := by
  intro buf tail hn
  obtain ⟨happ, hlen⟩ := hm buf tail hn
  rw [Stateful.exec_bind, Stateful.exec_bind, happ]
  rcases hx : Stateful.exec f m buf with ⟨e | a, buf'⟩
  · rw [hx] at hlen
    exact ⟨rfl, hlen⟩
  · rw [hx] at hlen
    dsimp only at hlen ⊢
    obtain ⟨happ', hlen'⟩ := hg a buf' tail (by omega)
    exact ⟨happ', by rw [hlen', hlen]⟩

/-- Bytes copied inside the first `n` leave the rest alone. -/
theorem framed_copy {written : Nat} {src : Bytes} {g : BufM β} (h : written + src.length ≤ n)
    (hg : Framed f n g) :
    Framed f n (do
      let buf ← (copyInto (← get) written src : Res Bytes)
      set buf
      g) := by
  intro buf tail hn
  have hfit : written + src.length ≤ buf.length := by omega
  have hfit' : written + src.length ≤ (buf ++ tail).length := by
    rw [List.length_append]
    omega
  have htake : (buf ++ tail).take written = buf.take written :=
    List.take_append_of_le_length (by omega)
  have hdrop : (buf ++ tail).drop (written + src.length) =
      buf.drop (written + src.length) ++ tail := List.drop_append_of_le_length hfit
  have hlen := paste_length hfit
  obtain ⟨happ, hlen'⟩ := hg (paste buf written src) tail (by omega)
  rw [Stateful.exec_get_bind, Stateful.exec_get_bind, Stateful.exec_lift_bind (copyInto_ok hfit'),
    Stateful.exec_lift_bind (copyInto_ok hfit), Stateful.exec_set_bind, Stateful.exec_set_bind,
    htake, hdrop, ← List.append_assoc]
  exact ⟨happ, hlen'.trans hlen⟩

/-- A turn of the read loop stays inside what is to be read. -/
theorem framed_readChunk (fs : Filesystem) (inode : Inode) (offsets : List Nat)
    {offset toRead written : Nat} (hw : written ≤ toRead) :
    Framed f toRead (fs.readChunk inode offsets offset toRead written) := by
  unfold readChunk
  refine framed_lift_bind fun _ _ => framed_lift_bind fun _ _ => framed_lift_bind fun blockOff _ =>
    framed_ofAsking_bind fun _ => framed_lift_bind fun block _ => ?_
  split
  · exact framed_throw _
  · rename_i hlt
    refine framed_lift_bind fun src hsrc => ?_
    obtain ⟨⟨_, hend⟩, rfl⟩ := slice_eq_ok.mp hsrc
    refine framed_copy ?_ (framed_lift _)
    rw [List.length_take, List.length_drop]
    omega

/-- The read loop stays inside what is to be read. -/
theorem framed_readLoop (fs : Filesystem) (inode : Inode) (offsets : List Nat)
    {offset toRead turns written : Nat} :
    Framed f toRead (fs.readLoop inode offsets offset toRead turns written) := by
  induction turns generalizing written with
  | zero =>
    unfold readLoop
    split
    · exact framed_throw _
    · exact framed_pure _
  | succ turns ih =>
    unfold readLoop
    split
    · rename_i hlt
      exact (framed_readChunk fs inode offsets (Nat.le_of_lt hlt)).bind fun _ => ih
    · exact framed_pure _

/-- **The clamp is invisible**: a read into a buffer is a read into as much of it as the file has
bytes. -/
theorem readFile_clamped (fs : Filesystem) (inode : Inode) (offset : UInt64) (buf : Bytes)
    {clamp : Nat} (hclamp : inode.fileSize.toNat ≤ clamp) :
    Stateful.exec f (fs.readFile inode offset) buf =
      ((Stateful.exec f (fs.readFile inode offset) (buf.take clamp)).1,
        (Stateful.exec f (fs.readFile inode offset) (buf.take clamp)).2 ++ buf.drop clamp) := by
  by_cases hfile : inode.isRegularFile = true
  · by_cases hnone : inode.fileSize ≤ offset ∨ buf = []
    · have hnone' : inode.fileSize ≤ offset ∨ buf.take clamp = [] :=
        hnone.imp_right fun h => by rw [h, List.take_nil]
      rw [readFile_nothing hfile hnone, readFile_nothing hfile hnone', List.take_append_drop]
    · obtain ⟨hlt, hbuf⟩ := not_or.mp hnone
      rw [UInt64.not_le] at hlt
      have hlt' := UInt64.lt_iff_toNat_lt.mp hlt
      have hpos := List.length_pos_of_ne_nil hbuf
      have hbuf' : buf.take clamp ≠ [] := by
        rw [← List.length_pos_iff, List.length_take]
        omega
      have hread : min (buf.take clamp).length (inode.fileSize.toNat - offset.toNat) =
          min buf.length (inode.fileSize.toNat - offset.toNat) := by
        rw [List.length_take]
        omega
      rw [readFile_loop hfile hlt hbuf, readFile_loop hfile hlt hbuf', hread]
      have hle : min buf.length (inode.fileSize.toNat - offset.toNat) ≤
          (buf.take clamp).length := by
        rw [List.length_take]
        omega
      generalize min buf.length (inode.fileSize.toNat - offset.toNat) = toRead at *
      have hframed := @framed_readLoop f fs inode (blockOffsets inode) offset.toNat toRead toRead 0
      obtain ⟨happ, -⟩ := hframed (buf.take clamp) (buf.drop clamp) hle
      rw [List.take_append_drop] at happ
      exact happ
  · unfold Filesystem.readFile readFileWithOffsets
    rw [if_pos hfile, Stateful.exec_throw, Stateful.exec_throw, List.take_append_drop]

@[simp] theorem exec_writing (memory : Bytes) (m : BufM Nat) (s : Option Bytes) :
    Stateful.exec f (writing memory n m) s =
      (mapErr Error.toErrno (Stateful.exec f m (memory.take n)).1,
        some ((Stateful.exec f m (memory.take n)).2 ++ memory.drop n)) := by
  unfold writing Stateful.exec
  show Query.run f (StateT.run m.run (memory.take n) >>= _) = _
  rw [Query.run_bind, Query.run_pure]

/-- A read into as much of the memory as the file has bytes leaves what a read into all of it
leaves. -/
theorem writing_clamped (fs : Filesystem) (inode : Inode) (offset : UInt64) (memory : Bytes)
    (length : Nat) (s : Option Bytes) :
    Stateful.exec f (writing memory (min (min length inode.fileSize.toNat) (wordSize - 1))
        (fs.readFile inode offset)) s =
      Stateful.exec f (writing memory length (fs.readFile inode offset)) s := by
  have hmin : min (min length inode.fileSize.toNat) (wordSize - 1) =
      min inode.fileSize.toNat length := by
    have hsize : inode.fileSize.toNat < wordSize := inode.fileSize.toNat_lt
    omega
  have hdrop : (memory.take length).drop inode.fileSize.toNat ++ memory.drop length =
      memory.drop (min inode.fileSize.toNat length) := by
    rcases Nat.le_total inode.fileSize.toNat length with h | h
    · rw [Nat.min_eq_left h, List.drop_take, ← Nat.add_sub_of_le h, ← List.drop_drop,
        Nat.add_sub_of_le h, List.take_append_drop]
    · rw [Nat.min_eq_right h, List.drop_eq_nil_of_le, List.nil_append]
      rw [List.length_take]
      omega
  rw [exec_writing, exec_writing, hmin,
    readFile_clamped fs inode offset (memory.take length) (Nat.le_refl _), List.take_take,
    List.append_assoc, hdrop]

end Clamp

/-! ## The count -/

section Count

variable {f : ∀ q, Reply q} {fs : Filesystem} {inode : Inode}

/-- A file's blocks are too few for its size to leave a signed word. -/
theorem fileSize_lt (hgeo : inode.Geometry fs.sb) (hfile : inode.isRegularFile = true) :
    inode.fileSize.toNat < 2 ^ 63 := by
  have hcount := hgeo.count hfile
  have hsmall := hgeo.small
  have hbs := fs.sb.blockSize_pos
  have hble := fs.sb.blockSize_le
  have hsize : inode.fileSize.toNat / fs.sb.blockSize.toNat ≤ MAX_BLOCKS := by
    refine Nat.le_trans ?_ (hcount ▸ hsmall)
    unfold InodeRecord.blocksNeeded
    split
    · exact Nat.div_le_div_right (by omega)
    · exact Nat.le_refl _
  have hlt : inode.fileSize.toNat < (MAX_BLOCKS + 1) * fs.sb.blockSize.toNat :=
    (Nat.div_lt_iff_lt_mul hbs).mp (Nat.lt_succ_of_le hsize)
  calc inode.fileSize.toNat < (MAX_BLOCKS + 1) * fs.sb.blockSize.toNat := hlt
    _ ≤ (MAX_BLOCKS + 1) * 2 ^ 20 := Nat.mul_le_mul_left _ hble
    _ < 2 ^ 63 := by decide

/-- A read gives no more bytes than the file has. -/
theorem readFile_count_le (hf : Tame f) (hgeo : inode.Geometry fs.sb)
    (hfile : inode.isRegularFile = true) {offset : UInt64} {buf buf' : Bytes} {n : Nat}
    (h : Stateful.exec f (fs.readFile inode offset) buf = (.ok n, buf')) :
    n ≤ inode.fileSize.toNat := by
  by_cases hnone : inode.fileSize ≤ offset ∨ buf = []
  · rw [readFile_nothing hfile hnone] at h
    cases h
    exact Nat.zero_le _
  · obtain ⟨hlt, hbuf⟩ := not_or.mp hnone
    rw [UInt64.not_le] at hlt
    by_cases hav : fs.Available f inode offset.toNat
        (offset.toNat + min buf.length (inode.fileSize.toNat - offset.toNat))
    · rw [readFile_ok hgeo hfile hlt hbuf rfl hav] at h
      cases h
      omega
    · obtain ⟨e, he⟩ := readFile_err hf hgeo hfile hlt hbuf rfl hav
      rw [h] at he
      cases he

theorem asI64_of_lt {n : Nat} (h : n < 2 ^ 63) : asI64 n = n := Int64.toInt_ofNat_of_lt h

end Count

/-! ## What the lock guards -/

section Guarded

variable {f : ∀ q, Reply q} {fs : Filesystem} {σ α : Type}

/-- What a path resolves to, afresh. -/
def resolved (f : ∀ q, Reply q) (fs : Filesystem) (path : Bytes) : Res ResolvedFile := do
  let inode ← Asking.exec f (fs.lookupPathBytes path)
  return ⟨path, inode, if inode.isRegularFile then Filesystem.blockOffsets inode else []⟩

/-- What is kept is what its path resolves to. -/
def Fresh (f : ∀ q, Reply q) (fs : Filesystem) (last : Option ResolvedFile) : Prop :=
  ∀ file, last = some file → resolved f fs file.path = .ok file

/-- The terms of the handle: the reader answers exactly, and the lock guards a fresh path. -/
def handleTerms (f : ∀ q, Reply q) (fs : Filesystem) : Terms HandleReq HandleReply where
  Pre
    | .unlock last => Fresh f fs last
    | _ => True
  Post
    | .reader q, r => r = f q
    | .lock, last => Fresh f fs last
    | .unlock _, _ => True

theorem gives_askReader (q : Req) : (handleTerms f fs).Gives (askReader q) (f q) :=
  Terms.meets_query trivial

theorem gives_lookup (path : Bytes) :
    (handleTerms f fs).Gives ((fs.lookupPathBytes path).run.through askReader)
      (Asking.exec f (fs.lookupPathBytes path)) := by
  refine Terms.Meets.through (fun q _ => ?_) (Terms.gives_exact f _)
  exact gives_askReader q

/-- **The path read last is invisible**: a path resolves to what it resolves to afresh. -/
theorem gives_resolveForRead (fs : Filesystem) (path : Bytes) :
    (handleTerms f fs).Gives (resolveForRead fs path).run (resolved f fs path) := by
  have hlock : (handleTerms f fs).Meets (Fresh f fs) lockLast := Terms.meets_query trivial
  have hunlock : ∀ last, Fresh f fs last →
      (handleTerms f fs).Meets (fun _ => True) (unlockLast last) := fun _ h => Terms.meets_query h
  unfold resolveForRead
  refine hlock.bind fun last hlast => ?_
  rcases hhit : last.filter (·.path == path) with _ | file
  · rw [hhit]
    refine Terms.Gives.bind (gives_lookup path) ?_
    unfold resolved
    rcases hnode : Asking.exec f (fs.lookupPathBytes path) with e | inode
    · exact (hunlock last hlast).bind fun _ _ => rfl
    · refine (hunlock _ fun file hfile => ?_).bind fun _ _ => rfl
      cases hfile
      unfold resolved
      rw [hnode]
      rfl
  · obtain ⟨hlast', hpath⟩ := Option.filter_eq_some_iff.mp hhit
    have hfresh := hlast file hlast'
    rw [beq_iff_eq.mp hpath] at hfresh
    rw [hfresh, hhit]
    exact (hunlock _ hlast).bind fun _ _ => rfl

/-- The clamped read of a resolved file gives what the whole one gives, its count included. -/
theorem givesFrom_clamped (hf : Tame f) {inode : Inode} (hgeo : inode.Geometry fs.sb)
    (hfile : inode.isRegularFile = true) (offset length : UInt64) (memory : Bytes) :
    (handleTerms f fs).GivesFrom (do
        let n ← (writing memory (min (min length.toNat inode.fileSize.toNat) (wordSize - 1))
          (fs.readFile inode offset)).through askReader
        return asI64 n) (some memory)
      (Stateful.exec f (do
        let n ← writing memory length.toNat (fs.readFile inode offset)
        return (n : Int)) (some memory)) := by
  have hgives : (handleTerms f fs).GivesFrom ((writing memory
      (min (min length.toNat inode.fileSize.toNat) (wordSize - 1))
      (fs.readFile inode offset)).through askReader) (some memory) _ :=
    Terms.GivesFrom.through gives_askReader _ (some memory)
  rw [writing_clamped, exec_writing] at hgives
  rw [Stateful.exec_bind, exec_writing]
  rcases hread : Stateful.exec f (fs.readFile inode offset) (memory.take length.toNat) with
    ⟨(e | - | -) | n, buf⟩
  · rw [hread] at hgives
    exact hgives.bind_error
  · rw [hread] at hgives
    exact hgives.bind_error
  · rw [hread] at hgives
    exact hgives.bind_error
  · rw [hread] at hgives
    have hn : n < 2 ^ 63 :=
      Nat.lt_of_le_of_lt (readFile_count_le hf hgeo hfile hread) (fileSize_lt hgeo hfile)
    refine hgives.bind_ok ?_
    rw [asI64_of_lt hn]
    exact rfl

/-- **A read on the handle's terms** gives and writes what it gives and writes afresh. -/
theorem givesFrom_readFileBody (hf : Tame f) (fs : Filesystem) (path : Option Bytes)
    (offset length : UInt64) (memory : Option Bytes) :
    (handleTerms f fs).GivesFrom (readFileBody (some fs) path offset length) memory
      (Stateful.exec f (readFileAfreshBody (some fs) path offset length) memory) := by
  rcases path with _ | path
  · exact rfl
  rcases memory with _ | memory
  · exact rfl
  unfold readFileBody readFileAfreshBody
  have hget : (handleTerms f fs).GivesFrom
      (get : Stateful HandleReq HandleReply Nat (Option Bytes) _) (some memory)
      (.ok (some memory), some memory) := rfl
  have hresolved : (handleTerms f fs).GivesFrom
      (Stateful.ofAsking ((resolveForRead fs (cstrToBytes path)).mapErr Error.toErrno))
      (some memory) (mapErr Error.toErrno (resolved f fs (cstrToBytes path)), some memory) :=
    Terms.GivesFrom.ofAsking ((gives_resolveForRead fs _).map _) _
  have hlookup := @exec_calling f (Option Bytes) _ (fs.lookupPathBytes (cstrToBytes path))
    (some memory)
  have hsafe := safe_lookupPathBytes hf fs (cstrToBytes path)
  refine hget.bind_ok ?_
  rw [Stateful.exec_get_bind]
  dsimp only
  unfold resolved at hresolved
  rcases hnode : Asking.exec f (fs.lookupPathBytes (cstrToBytes path)) with (e | - | -) | inode
  · rw [hnode] at hresolved hlookup
    rw [Stateful.exec_bind, hlookup]
    exact hresolved.bind_error
  · rw [hnode] at hresolved hlookup
    rw [Stateful.exec_bind, hlookup]
    exact hresolved.bind_error
  · rw [hnode] at hresolved hlookup
    rw [Stateful.exec_bind, hlookup]
    exact hresolved.bind_error
  · rw [hnode] at hresolved hlookup hsafe
    rw [Stateful.exec_bind_ok hlookup]
    refine hresolved.bind_ok ?_
    dsimp only
    by_cases hfile : inode.isRegularFile = true
    · rw [if_neg (not_not_intro hfile), if_neg (not_not_intro hfile), if_pos hfile]
      exact givesFrom_clamped hf hsafe hfile offset length memory
    · rw [if_pos hfile, if_pos hfile]
      exact rfl

/-- **A read** gives and writes what it gives and writes afresh. -/
theorem gives_readFile (hf : Tame f) (fs : Filesystem) (path : Option Bytes)
    (offset length : UInt64) (memory : Option Bytes) :
    (handleTerms f fs).Gives (readFile (some fs) path offset length memory)
      ((readFileAfresh (some fs) path offset length memory).run f) := by
  unfold readFile readFileAfresh
  rw [run_ffiGuard]
  exact Terms.Gives.bind (givesFrom_readFileBody hf fs path offset length memory) rfl

/-- A body's result is a count, or an error number. -/
def Answered : Outcome Nat Int → Prop
  | .ok n => 0 ≤ n
  | .error (.err errno) => errno ≠ 0
  | .error _ => False

theorem answered_mapErr {α : Type} {x : Res α} (hx : Returns x) {e : Fail Nat}
    (h : mapErr Error.toErrno x = .error e) : Answered (.error e) := by
  rcases x with (e' | - | -) | a
  · cases h
    exact e'.toErrno_ne_zero
  · exact hx.elim
  · exact hx.elim
  · cases h

theorem answered_readFileAfreshBody (hf : Tame f) (fs : Filesystem) (path : Option Bytes)
    (offset length : UInt64) (memory : Option Bytes) :
    Answered (Stateful.exec f (readFileAfreshBody (some fs) path offset length) memory).1 := by
  have hinval : Answered (.error (.err EINVAL)) := by
    show EINVAL ≠ 0
    decide
  rcases path with _ | path
  · exact hinval
  rcases memory with _ | memory
  · exact hinval
  have hsafe := safe_lookupPathBytes hf fs (cstrToBytes path)
  unfold readFileAfreshBody
  rw [Stateful.exec_get_bind]
  dsimp only
  rw [Stateful.exec_bind, exec_calling]
  rcases hnode : mapErr Error.toErrno (Asking.exec f (fs.lookupPathBytes (cstrToBytes path)))
    with e | inode
  · exact answered_mapErr hsafe.returns hnode
  · rw [mapErr_eq_ok.mp hnode] at hsafe
    dsimp only
    by_cases hfile : inode.isRegularFile = true
    · have hret := returns_readFile hf hsafe offset (memory.take length.toNat)
      rw [if_neg (not_not_intro hfile), Stateful.exec_bind, exec_writing]
      rcases hread : mapErr Error.toErrno
        (Stateful.exec f (fs.readFile inode offset) (memory.take length.toNat)).1 with e | n
      · exact answered_mapErr hret hread
      · exact Int.natCast_nonneg n
    · rw [if_pos hfile]
      exact hinval

/-- A call reports a count that is not negative, or fails with -1 and an error number. -/
def Report.Sound (r : Report Int) : Prop :=
  (r.errno = 0 ∧ 0 ≤ r.value) ∨ (r.errno ≠ 0 ∧ r.value = -1)

theorem readFileAfresh_sound (hf : Tame f) (fs : Filesystem) (path : Option Bytes)
    (offset length : UInt64) (memory : Option Bytes) :
    ∃ r, ((readFileAfresh (some fs) path offset length memory).run f).1 = some r ∧ r.Sound := by
  have h := answered_readFileAfreshBody hf fs path offset length memory
  unfold readFileAfresh
  rw [run_ffiGuard]
  revert h
  rcases (Stateful.exec f (readFileAfreshBody (some fs) path offset length) memory).1
    with (errno | - | -) | n
  all_goals intro h
  · exact ⟨_, rfl, .inr ⟨h, rfl⟩⟩
  · exact h.elim
  · exact h.elim
  · exact ⟨_, rfl, .inl ⟨rfl, h⟩⟩

end Guarded

/-! ## Threads on one handle -/

/-- The arguments of a read. -/
structure ReadCall where
  path : Option Bytes
  offset : UInt64
  length : UInt64
  buf : Option Bytes
  deriving Repr, DecidableEq

/-- The read afresh. -/
def ReadCall.afresh (fs : Filesystem) (call : ReadCall) : EntryPoint (Option Bytes) Int :=
  readFileAfresh (some fs) call.path call.offset call.length call.buf

/-- A call on a handle: a read, or any other, which asks the reader what it likes or changes the
caches' capacities. -/
inductive HandleCall where
  | readFile (call : ReadCall)
  | other (program : SessionM Unit)
  | setCapacity (event : SetCapacity)

/-- The atomic operations of a handle's threads: the caches', the lock's, and putting down what a
read gave. -/
inductive HandleOp where
  | get (q : Req)
  | put (q : Req) (v : q.Value)
  | setCapacity (event : SetCapacity)
  | lock
  | unlock (last : Option ResolvedFile)
  | finish (call : ReadCall) (result : ReadResult)

abbrev HandleOpReply : HandleOp → Type
  | .get q => Option q.Value
  | .lock => Option ResolvedFile
  | _ => Unit

/-- Programs of a handle's threads. -/
abbrev ThreadM (α : Type) := Query HandleOp HandleOpReply α

/-- What a handle's threads share: the caches, the path read last under its lock, and the finished
reads, latest first. -/
structure Handle (σ τ ι : Type) where
  caches : Caches σ τ
  last : Option ResolvedFile
  holder : Option ι
  finished : List (ι × ReadCall × ReadResult)

/-- A request through the caches: looked up, and on a miss computed and kept. -/
def throughCaches (f : ∀ q, Reply q) (q : Req) : ThreadM (Reply q) := do
  match ← (Query.query (HandleOp.get q) : ThreadM (Option q.Value)) with
  | some v => return .ok v
  | none =>
    match f q with
    | .ok v =>
      (Query.query (HandleOp.put q v) : ThreadM Unit)
      return .ok v
    | .error e => return .error e

/-- What a handle is asked, as operations. -/
def onHandle (f : ∀ q, Reply q) : (q : HandleReq) → ThreadM (HandleReply q)
  | .reader q => throughCaches f q
  | .lock => Query.query HandleOp.lock
  | .unlock last => Query.query (HandleOp.unlock last)

/-- One call of a thread. -/
def HandleCall.perform (f : ∀ q, Reply q) (fs : Filesystem) : HandleCall → ThreadM Unit
  | .readFile call => do
    let result ← (Capi.readFile (some fs) call.path call.offset call.length call.buf).through
      (onHandle f)
    Query.query (HandleOp.finish call result)
  | .other program => program.through (throughCaches f)
  | .setCapacity event => Query.query (HandleOp.setCapacity event)

/-- A thread's calls, one after the other. -/
def performAll (f : ∀ q, Reply q) (fs : Filesystem) : List HandleCall → ThreadM Unit
  | [] => return ()
  | call :: calls => do
    call.perform f fs
    performAll f fs calls

section Threads

variable {σ τ ι : Type} [DecidableEq ι] (M : BoundedMap Nat (Bytes × Nat) σ)
  (D : BoundedMap DataKey Bytes τ)

/-- What an operation does. The lock is taken when nobody holds it. -/
def handleObjects : Objects HandleOp HandleOpReply (Handle σ τ ι) ι := fun i h o =>
  match o with
  | .get q => some ((h.caches.get M D q).1, { h with caches := (h.caches.get M D q).2 })
  | .put q v => some ((), { h with caches := h.caches.insert M D q v })
  | .setCapacity event => some ((), { h with caches := h.caches.setCapacity M D event })
  | .lock => if h.holder = none then some (h.last, { h with holder := some i }) else none
  | .unlock last =>
    if h.holder = some i then some ((), { h with holder := none, last := last }) else none
  | .finish call result => some ((), { h with finished := (i, call, result) :: h.finished })

/-- A handle just opened, with caches of the capacities given. -/
def Handle.new (metaBlocks dataBlocks : Nat) : Handle σ τ ι :=
  ⟨Caches.new M D metaBlocks dataBlocks, none, none, []⟩

/-- What the threads of a handle keep: the caches hold true answers, the lock guards a fresh path,
and every finished read gave what it gives afresh. -/
structure Handle.InOrder (f : ∀ q, Reply q) (fs : Filesystem) (h : Handle σ τ ι) : Prop where
  caches : Sound (cacheMemo M D) f h.caches
  last : Fresh f fs h.last
  finished : ∀ x ∈ h.finished, x.2.2 = (x.2.1.afresh fs).run f

/-- The terms of the operations. -/
def opTerms (f : ∀ q, Reply q) (fs : Filesystem) : Terms HandleOp HandleOpReply where
  Pre
    | .put q v => f q = .ok v
    | .unlock last => Fresh f fs last
    | .finish call result => result = (call.afresh fs).run f
    | _ => True
  Post
    | .get q, r => ∀ v, r = some v → f q = .ok v
    | .lock, last => Fresh f fs last
    | _, _ => True

variable {M D} {f : ∀ q, Reply q} {fs : Filesystem}

/-- **One operation** keeps the handle in order. -/
theorem Handle.InOrder.step {i : ι} {h h' : Handle σ τ ι} {o : HandleOp} {r : HandleOpReply o}
    (hin : h.InOrder M D f fs) (hpre : (opTerms f fs).Pre o)
    (hs : handleObjects M D i h o = some (r, h')) :
    h'.InOrder M D f fs ∧ (opTerms f fs).Post o r := by
  cases o with
  | get q =>
    cases hs
    exact ⟨⟨hin.caches.get q, hin.last, hin.finished⟩,
      fun v hv => hin.caches q v ((cacheMemo M D).holds_of_get hv)⟩
  | put q v =>
    cases hs
    exact ⟨⟨hin.caches.put hpre, hin.last, hin.finished⟩, trivial⟩
  | setCapacity event =>
    cases hs
    exact ⟨⟨fun q v hv => hin.caches q v ((cacheMemo M D).holds_after_admin hv), hin.last,
      hin.finished⟩, trivial⟩
  | lock =>
    unfold handleObjects at hs
    dsimp only at hs
    split at hs
    · cases hs
      exact ⟨⟨hin.caches, hin.last, hin.finished⟩, hin.last⟩
    · cases hs
  | unlock last =>
    unfold handleObjects at hs
    dsimp only at hs
    split at hs
    · cases hs
      exact ⟨⟨hin.caches, hpre, hin.finished⟩, trivial⟩
    · cases hs
  | finish call result =>
    cases hs
    refine ⟨⟨hin.caches, hin.last, fun x hx => ?_⟩, trivial⟩
    rcases List.mem_cons.mp hx with rfl | hx
    · exact hpre
    · exact hin.finished x hx

/-- The handle's contract with its threads. -/
def handleContract (M : BoundedMap Nat (Bytes × Nat) σ) (D : BoundedMap DataKey Bytes τ)
    (f : ∀ q, Reply q) (fs : Filesystem) : Contract (@handleObjects σ τ ι _ M D) where
  Inv h := h.InOrder M D f fs
  terms _ := opTerms f fs
  keeps hin hpre hs := hin.step hpre hs

theorem gives_throughCaches (q : Req) : (opTerms f fs).Gives (throughCaches f q) (f q) := by
  have hget : (opTerms f fs).Meets (fun r => ∀ v, r = some v → f q = .ok v)
      (Query.query (HandleOp.get q)) := Terms.meets_query trivial
  refine hget.bind fun r hr => ?_
  rcases r with _ | v
  · dsimp only
    rcases hq : f q with e | v
    · exact rfl
    · have hput : (opTerms f fs).Meets (fun _ => True) (Query.query (HandleOp.put q v)) :=
        Terms.meets_query hq
      exact hput.bind fun _ _ => rfl
  · exact (hr v rfl).symm

/-- What a handle is asked keeps the handle's terms. -/
theorem meets_onHandle (q : HandleReq) (hpre : (handleTerms f fs).Pre q) :
    (opTerms f fs).Meets ((handleTerms f fs).Post q) (onHandle f q) := by
  cases q with
  | reader q => exact gives_throughCaches q
  | lock => exact Terms.meets_query trivial
  | unlock last => exact Terms.meets_query hpre

/-- **A call** keeps the terms of its operations. -/
theorem meets_perform (hf : Tame f) (fs : Filesystem) (call : HandleCall) :
    (opTerms f fs).Meets (fun _ => True) (call.perform f fs) := by
  cases call with
  | readFile call =>
    have hread := gives_readFile hf fs call.path call.offset call.length call.buf
    refine (Terms.Meets.through meets_onHandle hread).bind fun result hresult => ?_
    exact Terms.meets_query hresult
  | other program =>
    have hprogram : (Terms.exact f).Meets (fun _ => True) program :=
      (Terms.gives_exact f program).mono fun _ _ => trivial
    refine hprogram.through fun q _ => ?_
    exact gives_throughCaches q
  | setCapacity event => exact Terms.meets_query trivial

theorem meets_performAll (hf : Tame f) (fs : Filesystem) (calls : List HandleCall) :
    (opTerms f fs).Meets (fun _ => True) (performAll f fs calls) := by
  induction calls with
  | nil => trivial
  | cons call calls ih => exact (meets_perform hf fs call).bind fun _ _ => ih

/-- The handle's threads about to make their calls. -/
def crew (M : BoundedMap Nat (Bytes × Nat) σ) (D : BoundedMap DataKey Bytes τ)
    (f : ∀ q, Reply q) (fs : Filesystem) (metaBlocks dataBlocks : Nat)
    (calls : ι → List HandleCall) : Crew HandleOp HandleOpReply Unit (Handle σ τ ι) ι :=
  ⟨Handle.new M D metaBlocks dataBlocks, fun i => performAll f fs (calls i)⟩

/-- **The read path's memory is invisible.** Whatever calls the threads of a handle make, in
whatever order their operations come: every finished read gave what it gives and wrote what it
writes when it resolves its path afresh, builds the block map again and reads into its caller's
whole buffer, and it gave a count that is not negative or failed. -/
theorem read_cache_invisible (codecs : Codecs) (fs : Filesystem) (metaBlocks dataBlocks : Nat)
    (calls : ι → List HandleCall) {c : Crew HandleOp HandleOpReply Unit (Handle σ τ ι) ι}
    (hrun : Relation.ReflTransGen (Crew.Step (handleObjects M D))
      (crew M D (fs.answers codecs) fs metaBlocks dataBlocks calls) c) :
    ∀ x ∈ c.shared.finished, x.2.2 = (x.2.1.afresh fs).run (fs.answers codecs) ∧
      ∃ report, x.2.2.1 = some report ∧ report.Sound := by
  have hf := fs.tame_answers codecs
  have hstart : (crew M D (fs.answers codecs) fs metaBlocks dataBlocks calls).Sound
      (handleContract M D (fs.answers codecs) fs) (fun _ _ => True) :=
    ⟨⟨sound_new M D _ metaBlocks dataBlocks, nofun, fun x hx => absurd hx List.not_mem_nil⟩,
      fun i => meets_performAll hf fs (calls i)⟩
  intro x hx
  have hx := (Crew.keeps hstart hrun).1.finished x hx
  rw [hx]
  exact ⟨rfl, readFileAfresh_sound hf fs _ _ _ _⟩

end Threads

/-- A file of the sample image read twice, the second time from the path kept, by one of two
threads. -/
theorem read_cache_invisible_sample :
    ∃ c : Crew HandleOp HandleOpReply Unit
        (Handle (BoundedMap.Lru Nat (Bytes × Nat)) (BoundedMap.Lru DataKey Bytes) Bool) Bool,
      c.shared.finished.map (·.2.2) =
          [(some ⟨3, 0⟩, some [0x44, 0x80, 0x01, 9]), (some ⟨2, 0⟩, some [0x80, 0x01, 0, 7])] ∧
        ∀ x ∈ c.shared.finished, x.2.2 = (x.2.1.afresh sample).run (sample.answers .none) := by
  let calls : Bool → List HandleCall := fun _ =>
    [.readFile ⟨some [0x61, 0], 1, 4, some [0, 0, 0, 7]⟩,
      .readFile ⟨some [0x61, 0], 0, 4, some [9, 9, 9, 9]⟩]
  let M := BoundedMap.lru Nat (Bytes × Nat)
  let D := BoundedMap.lru DataKey Bytes
  let start := crew M D (sample.answers .none) sample 2 1 calls
  have hsolo : (solo (handleObjects M D) true (start.threads true) start.shared).map
      (·.2.finished.map (·.2.2)) = some [(some ⟨3, 0⟩, some [0x44, 0x80, 0x01, 9]),
        (some ⟨2, 0⟩, some [0x80, 0x01, 0, 7])] := by
    decide +kernel
  obtain ⟨⟨a, s⟩, hsolo, hfinished⟩ := Option.map_eq_some_iff.mp hsolo
  obtain ⟨c, hrun, rfl, -⟩ := Crew.run_solo hsolo
  exact ⟨c, hfinished, fun x hx => (read_cache_invisible .none sample 2 1 calls hrun x hx).1⟩

end Capi

end Squashfs
