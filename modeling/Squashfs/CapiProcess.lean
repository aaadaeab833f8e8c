import Squashfs.CapiTree

/-!
# A process at the C ABI

Model of the handles, iterators and error numbers of `src/capi.rs`: the error slot (43-111,
119-121), mounting (392-478) and unmounting (510-519), the volume's data and the iterators (526-561,
655-747).

A process holds the images it mounted, the directory iterators it opened, and for each of its
threads the error number of the slot. A pointer is a place in a list of what was given out, empty
once it was given back; a call on an empty place has no step, since the ABI leaves it undefined.

`answer` says what a call gives from the calls made before it alone: a call on a handle what it
gives on the image mounted there, an iterator its entries one by one, `last_errno` the number of the
thread's last call that reports one. **`process_answers`**: in any run of any threads every call
gave that. So nothing is lost or repeated between iterators, no call depends on what was read
before, and an iterator outlives its handle. **`process_of_tree`**: an iterator opened on a
directory of a stored tree gives the directory's children, each once and in order, and then NULL.

Out of scope: mounting through a device handle of `fs_core` (486-505), the addresses that pointers
are, which may come back after a `free`, and calls on one iterator by two threads at once.
-/

namespace Squashfs

open Foundation Filesystem

/-- `Compressor::name`. -/
def Compressor.name : Compressor → String
  | .gzip => "gzip"
  | .lzma => "lzma"
  | .lzo => "lzo"
  | .xz => "xz"
  | .lz4 => "lz4"
  | .zstd => "zstd"

namespace Capi

/-! ## Volumes -/

/-- `SQFS_COMPRESSION_NAME_CAP`. -/
def SQFS_COMPRESSION_NAME_CAP : Nat := 16

/-- `fs_squashfs_volume_info_t`. -/
structure VolumeInfo where
  blockSize : UInt32
  compressionId : UInt16
  compressionName : Bytes
  inodeCount : UInt32
  fragmentCount : UInt32
  idCount : UInt16
  bytesUsed : UInt64
  mkfsTime : UInt32
  versionMajor : UInt16
  versionMinor : UInt16
  flags : UInt16
  deriving Repr, DecidableEq

/-- A name in a zeroed buffer, cut to leave room for its NUL. -/
def compressionName (name : String) : Outcome Nat Bytes := do
  let name := name.toList.map fun c => UInt8.ofNat c.toNat
  let n := min name.length (SQFS_COMPRESSION_NAME_CAP - 1)
  let out ← copyInto (List.replicate SQFS_COMPRESSION_NAME_CAP 0) 0 (← slice name 0 n)
  store out n 0

def volumeInfoBody (fs : Option Filesystem) : Body (Option VolumeInfo) Int := do
  match fs, ← get with
  | some fs, some _ =>
    let name ← (compressionName fs.comp.name : Outcome Nat Bytes)
    set (some {
      blockSize := fs.sb.blockSize
      compressionId := fs.sb.compressionId
      compressionName := name
      inodeCount := fs.sb.inodeCount
      fragmentCount := fs.sb.fragmentEntryCount
      idCount := fs.sb.idCount
      bytesUsed := fs.sb.bytesUsed
      mkfsTime := fs.sb.modificationTime
      versionMajor := fs.sb.versionMajor
      versionMinor := fs.sb.versionMinor
      flags := fs.sb.flags : VolumeInfo })
    return 0
  | _, _ => throw (.err EINVAL)

/-- `fs_squashfs_get_volume_info`. -/
def volumeInfo (fs : Option Filesystem) : Option VolumeInfo → EntryPoint (Option VolumeInfo) Int :=
  ffiGuard (-1) (volumeInfoBody fs)

def isExportableBody (fs : Option Filesystem) : Body Unit Int := do
  match fs with
  | some fs => return if fs.exports.isSome then 1 else 0
  | none => throw (.err EINVAL)

/-- `fs_squashfs_is_exportable`. -/
def isExportable (fs : Option Filesystem) : EntryPoint Unit Int :=
  ffiGuard (-1) (isExportableBody fs) ()

/-! ## Mounting -/

/-- What lies outside: the block cache, the codecs, and the host's files as devices. -/
structure Platform where
  caching : Caching
  codecs : Codecs
  openFile : Bytes → Option Device

/-- `mount_from_device`. -/
def mountFromDevice (env : Platform) (dev : Device) : Outcome Nat Filesystem :=
  mapErr Error.toErrno (openImage env.caching env.codecs dev)

/-- `fs_squashfs_mount`: the path is the host's, so it has to be text. -/
def mount (env : Platform) (path : Option Bytes) : Outcome Nat Filesystem :=
  match path with
  | none => .error (.err EINVAL)
  | some memory =>
    let path := cstrToBytes memory
    if ¬ (ByteArray.mk path.toArray).validateUTF8 then .error (.err EINVAL)
    else if path.isEmpty then .error (.err EINVAL)
    else
      match env.openFile path with
      | none => .error (.err EIO)
      | some dev => mountFromDevice env dev

/-- `fs_squashfs_mount_with_callbacks`: the configuration, and the device of its read callback. -/
def mountWithCallbacks (env : Platform) (cfg : Option (Option Device)) : Outcome Nat Filesystem :=
  match cfg with
  | none => .error (.err EINVAL)
  | some none => .error (.err EINVAL)
  | some (some dev) => mountFromDevice env dev

/-! ## Calls -/

/-- A call on a handle that gives out nothing of the process. -/
inductive FsCall where
  | volumeInfo (info : Option VolumeInfo)
  | struct (call : StructCall) (attr : Option Attr)
  | isExportable
  | readFile (call : ReadCall)
  | buffer (call : BufferCall) (bufsize : Nat) (memory : Option Bytes)

/-- What it gives, and the memory it leaves. -/
inductive FsReply where
  | volumeInfo (value : Int) (info : Option VolumeInfo)
  | struct (value : Int) (attr : Option Attr)
  | int (value : Int)
  | memory (value : Int) (memory : Option Bytes)
  deriving Repr, DecidableEq

/-- A call of the process. A pointer is a place, and NULL none. -/
inductive ProcessCall where
  | mount (path : Option Bytes)
  | mountWithCallbacks (cfg : Option (Option Device))
  | umount (fs : Option Nat)
  | onFs (fs : Option Nat) (call : FsCall)
  | dirOpen (fs : Option Nat) (path : Option Bytes)
  | dirNext (iter : Option Nat)
  | dirClose (iter : Option Nat)
  | lastErrno

inductive ProcessReply where
  | mounted (fs : Option Nat)
  | onFs (reply : FsReply)
  | opened (iter : Option Nat)
  | entry (e : Option Dirent)
  | errno (n : Nat)
  | done
  deriving Repr, DecidableEq

/-- A report with its value and memory made into a reply. -/
def replying {α σ : Type} (make : α → σ → FsReply) (r : Option (Report α) × σ) :
    Option (Report FsReply) :=
  r.1.map fun report => ⟨make report.value r.2, report.errno⟩

/-- The answers of the image behind a handle; behind NULL nothing is asked. -/
def answering (codecs : Codecs) : Option Filesystem → ∀ q, Reply q
  | some fs, q => fs.answers codecs q
  | none, _ => fails .outOfRange

/-- What a call gives on an image, with nothing kept between calls. -/
def FsCall.afresh (codecs : Codecs) (fs : Option Filesystem) : FsCall → Option (Report FsReply)
  | .volumeInfo info => replying .volumeInfo ((Capi.volumeInfo fs info).run (answering codecs fs))
  | .struct call attr => replying .struct ((call.perform fs attr).run (answering codecs fs))
  | .isExportable => replying (fun n _ => .int n) ((Capi.isExportable fs).run (answering codecs fs))
  | .readFile call => replying .memory
    ((readFileAfresh fs call.path call.offset call.length call.buf).run (answering codecs fs))
  | .buffer call bufsize memory =>
    replying .memory ((call.perform fs bufsize memory).run (answering codecs fs))

/-! ## The process -/

/-- `fs_squashfs_fs_t`: an image, and the path read last from it. -/
structure Mount where
  fs : Filesystem
  last : Option ResolvedFile

/-- What a handle is asked, by one thread at a time: the lock is free. -/
def serveHandle (f : ∀ q, Reply q) {α : Type} :
    HandleM α → Option ResolvedFile → α × Option ResolvedFile
  | .ret a, last => (a, last)
  | .ask (.reader q) k, last => serveHandle f (k (f q)) last
  | .ask .lock k, last => serveHandle f (k last) last
  | .ask (.unlock last) k, _ => serveHandle f (k ()) last

/-- A call on a handle, and the path it leaves there. -/
def FsCall.perform (codecs : Codecs) (m : Option Mount) (call : FsCall) :
    Option (Report FsReply) × Option ResolvedFile :=
  let fs := m.map (·.fs)
  let last := m.bind (·.last)
  match call with
  | .readFile c =>
    let r := serveHandle (answering codecs fs)
      (Capi.readFile fs c.path c.offset c.length c.buf) last
    (replying .memory r.1, r.2)
  | call => (call.afresh codecs fs, last)

/-- The state of a process: what was given out, empty where it was given back, and each thread's
error number. -/
structure Process (ι : Type) where
  mounts : List (Option Mount)
  iters : List (Option DirIter)
  errno : ι → Nat

namespace Process

variable {ι : Type} [DecidableEq ι]

def start : Process ι := ⟨[], [], fun _ => 0⟩

/-- What a pointer into a list points to: NULL to nothing, and a place given back nowhere. -/
def deref {α : Type} (xs : List (Option α)) : Option Nat → Option (Option α)
  | none => some none
  | some p => xs[p]?.join.map some

/-- The thread's slot set to a report's number. -/
def setErrno (p : Process ι) (t : ι) (n : Nat) : Process ι :=
  { p with errno := Function.update p.errno t n }

/-- A handle given out, or NULL. -/
def mounting (p : Process ι) (t : ι) (r : Outcome Nat Filesystem) :
    Option (ProcessReply × Process ι) :=
  (report none (some <$> r)).map fun report =>
    let p := p.setErrno t report.errno
    match report.value with
    | some fs =>
      (.mounted (some p.mounts.length), { p with mounts := p.mounts ++ [some ⟨fs, none⟩] })
    | none => (.mounted none, p)

/-- One call of a thread: what it gives, and the process after it. -/
def perform (env : Platform) (p : Process ι) (t : ι) :
    ProcessCall → Option (ProcessReply × Process ι)
  | .mount path => p.mounting t (Capi.mount env path)
  | .mountWithCallbacks cfg => p.mounting t (Capi.mountWithCallbacks env cfg)
  | .umount fs => do
    let _ ← deref p.mounts fs
    return (.done, { p with mounts := fs.elim p.mounts fun i => p.mounts.set i none })
  | .onFs fs call => do
    let m ← deref p.mounts fs
    let r := call.perform env.codecs m
    let report ← r.1
    let mounts := fs.elim p.mounts fun i => p.mounts.set i (m.map fun m => { m with last := r.2 })
    return (.onFs report.value, { p.setErrno t report.errno with mounts := mounts })
  | .dirOpen fs path => do
    let m ← deref p.mounts fs
    let fs := m.map (·.fs)
    let report ← ((Capi.dirOpen fs path).run (answering env.codecs fs)).1
    let p := p.setErrno t report.errno
    match report.value with
    | some iter =>
      return (.opened (some p.iters.length), { p with iters := p.iters ++ [some iter] })
    | none => return (.opened none, p)
  | .dirNext iter => do
    let it ← deref p.iters iter
    match iter, it with
    | some i, some it =>
      let (e, it) := Capi.dirNext it
      return (.entry e, { p with iters := p.iters.set i (some it) })
    | _, _ => return (.entry none, p)
  | .dirClose iter => do
    let _ ← deref p.iters iter
    return (.done, { p with iters := iter.elim p.iters fun i => p.iters.set i none })
  | .lastErrno => some (.errno (p.errno t), p)

end Process

/-! ## The history -/

section History

variable {ι : Type} [DecidableEq ι]

/-- A call that was made, and what it gave. Histories list them latest first. -/
structure Event (ι : Type) where
  thread : ι
  call : ProcessCall
  reply : ProcessReply

/-- A run of a process, with its history. -/
inductive Process.Run (env : Platform) : Process ι → List (Event ι) → Prop
  | start : Run env .start []
  | call {p h t call reply p'} (hrun : Run env p h)
      (hcall : p.perform env t call = some (reply, p')) : Run env p' (⟨t, call, reply⟩ :: h)

/-- Calls made one after the other, with the history they add to. -/
def Process.play (env : Platform) (p : Process ι) (h : List (Event ι)) :
    List (ι × ProcessCall) → Option (Process ι × List (Event ι))
  | [] => some (p, h)
  | (t, call) :: calls => do
    let (reply, p) ← p.perform env t call
    p.play env (⟨t, call, reply⟩ :: h) calls

theorem Process.Run.play {env : Platform} {p p' : Process ι} {h h' : List (Event ι)}
    {calls : List (ι × ProcessCall)} (hrun : Process.Run env p h)
    (hplay : p.play env h calls = some (p', h')) : Process.Run env p' h' ∧ h <:+ h' := by
  induction calls generalizing p h with
  | nil =>
    cases hplay
    exact ⟨hrun, List.suffix_rfl⟩
  | cons c calls ih =>
    obtain ⟨⟨reply, q⟩, hcall, hrest⟩ := Option.bind_eq_some_iff.mp hplay
    obtain ⟨hrun', hsuffix⟩ := ih (hrun.call hcall) hrest
    exact ⟨hrun', (List.suffix_cons _ _).trans hsuffix⟩

/-- The image a call mounts. -/
def ProcessCall.mounts (env : Platform) : ProcessCall → Option Filesystem
  | .mount path => (Capi.mount env path).toOption
  | .mountWithCallbacks cfg => (Capi.mountWithCallbacks env cfg).toOption
  | _ => none

/-- The images mounted so far, in order: a handle is a place among them. -/
def mounted (env : Platform) : List (Event ι) → List Filesystem
  | [] => []
  | e :: h => mounted env h ++ (e.call.mounts env).toList

/-- The image that was mounted at a handle. -/
def fsAt (env : Platform) (h : List (Event ι)) (fs : Option Nat) : Option Filesystem :=
  fs.bind fun i => (mounted env h)[i]?

/-- The entries that a call opens an iterator on. -/
def ProcessCall.opens (env : Platform) (h : List (Event ι)) : ProcessCall → Option (List Dirent)
  | .dirOpen fs path =>
    ((Capi.dirOpen (fsAt env h fs) path).run (answering env.codecs (fsAt env h fs))).1.bind
      fun report => report.value.map (·.entries)
  | _ => none

/-- The listings opened so far, in order. -/
def opened (env : Platform) : List (Event ι) → List (List Dirent)
  | [] => []
  | e :: h => opened env h ++ (e.call.opens env h).toList

/-- What an iterator gave so far, in order. -/
def given (it : Nat) : List (Event ι) → List (Option Dirent)
  | [] => []
  | ⟨_, .dirNext (some i), .entry e⟩ :: h => if i = it then given it h ++ [e] else given it h
  | _ :: h => given it h

/-- What a call reports that sets the slot of its thread, if it does. -/
def reported (env : Platform) (h : List (Event ι)) :
    ProcessCall → Option (Option (Report ProcessReply))
  | .mount path => some <| (report none (some <$> Capi.mount env path)).map fun r =>
    ⟨.mounted (r.value.map fun _ => (mounted env h).length), r.errno⟩
  | .mountWithCallbacks cfg =>
    some <| (report none (some <$> Capi.mountWithCallbacks env cfg)).map fun r =>
      ⟨.mounted (r.value.map fun _ => (mounted env h).length), r.errno⟩
  | .onFs fs call => some <| (call.afresh env.codecs (fsAt env h fs)).map fun r =>
    ⟨.onFs r.value, r.errno⟩
  | .dirOpen fs path => some <|
    ((Capi.dirOpen (fsAt env h fs) path).run (answering env.codecs (fsAt env h fs))).1.map
      fun r => ⟨.opened (r.value.map fun _ => (opened env h).length), r.errno⟩
  | _ => none

/-- The number that the last of a thread's calls to set its slot left there. -/
def errnoOf (env : Platform) (t : ι) : List (Event ι) → Nat
  | [] => 0
  | e :: h =>
    match reported env h e.call with
    | some (some r) => if t = e.thread then r.errno else errnoOf env t h
    | _ => errnoOf env t h

/-- What a call gives, from the calls before it. -/
def answer (env : Platform) (h : List (Event ι)) (t : ι) (call : ProcessCall) :
    Option ProcessReply :=
  match reported env h call with
  | some r => r.map (·.value)
  | none =>
    match call with
    | .dirNext it => some (.entry (it.bind fun i =>
      (opened env h)[i]?.bind fun entries => entries[(given i h).length]?))
    | .lastErrno => some (.errno (errnoOf env t h))
    | _ => some .done

/-- Every call gave what the calls before it say. -/
def Explained (env : Platform) : List (Event ι) → Prop
  | [] => True
  | e :: h => answer env h e.thread e.call = some e.reply ∧ Explained env h

end History

/-! ## Handles -/

section Handles

variable {codecs : Codecs} {mounts : List (Option Mount)} {images : List Filesystem}

/-- A handle that is not given back holds its image, and a path read last that is fresh. -/
structure Backed (codecs : Codecs) (mounts : List (Option Mount)) (images : List Filesystem) :
    Prop where
  length_eq : mounts.length = images.length
  mount : ∀ (i : Nat) (m : Mount), mounts[i]? = some (some m) →
    images[i]? = some m.fs ∧ Fresh (m.fs.answers codecs) m.fs m.last

theorem Backed.push (h : Backed codecs mounts images) (fs : Filesystem) :
    Backed codecs (mounts ++ [some ⟨fs, none⟩]) (images ++ [fs]) := by
  refine ⟨by simp [h.length_eq], fun i m hi => ?_⟩
  rw [List.getElem?_append] at hi ⊢
  rw [← h.length_eq]
  split at hi
  · rename_i hlt
    rw [if_pos hlt]
    exact h.mount i m hi
  · rename_i hlt
    rw [if_neg hlt]
    rw [List.getElem?_singleton] at hi
    split at hi
    · rename_i hzero
      cases hi
      rw [hzero]
      exact ⟨rfl, fun _ h => absurd h (Option.some_ne_none _).symm⟩
    · cases hi

theorem Backed.set (h : Backed codecs mounts images) (i : Nat) {r : Option Mount}
    (hr : ∀ m, r = some m →
      images[i]? = some m.fs ∧ Fresh (m.fs.answers codecs) m.fs m.last) :
    Backed codecs (mounts.set i r) images := by
  refine ⟨by rw [List.length_set]; exact h.length_eq, fun j m hj => ?_⟩
  rw [List.getElem?_set] at hj
  split at hj
  · rename_i hij
    subst hij
    split at hj
    · exact hr m (Option.some.inj hj)
    · cases hj
  · exact h.mount j m hj

/-- A pointer that is not given back points to its place. -/
theorem deref_some {α : Type} {xs : List (Option α)} {i : Nat} {r : Option α}
    (h : Process.deref xs (some i) = some r) : ∃ a, r = some a ∧ xs[i]? = some (some a) := by
  unfold Process.deref at h
  dsimp only at h
  rcases hx : xs[i]? with _ | _ | a
  · rw [hx] at h
    cases h
  · rw [hx] at h
    cases h
  · rw [hx] at h
    cases h
    exact ⟨a, rfl, rfl⟩

/-- **A handle served by one thread** gives what its terms say, and leaves a fresh path. -/
theorem serveHandle_gives {f : ∀ q, Reply q} {fs : Filesystem} {α : Type} {p : HandleM α} {a : α}
    {last : Option ResolvedFile} (h : (handleTerms f fs).Gives p a) (hlast : Fresh f fs last) :
    (serveHandle f p last).1 = a ∧ Fresh f fs (serveHandle f p last).2 := by
  induction p generalizing last with
  | ret b => exact ⟨h, hlast⟩
  | ask q k ih =>
    cases q with
    | reader q => exact ih (f q) (h.2 (f q) rfl) hlast
    | lock => exact ih last (h.2 last hlast) hlast
    | unlock last' => exact ih () (h.2 () trivial) h.1

/-- **A call on a handle gives what it gives with nothing kept**, and leaves a fresh path. -/
theorem FsCall.perform_afresh (m : Option Mount) (call : FsCall)
    (hm : ∀ mt, m = some mt → Fresh (mt.fs.answers codecs) mt.fs mt.last) :
    (call.perform codecs m).1 = call.afresh codecs (m.map (·.fs)) ∧
      ∀ mt, m = some mt → Fresh (mt.fs.answers codecs) mt.fs (call.perform codecs m).2 := by
  cases call with
  | readFile c =>
    rcases m with _ | mt
    · refine ⟨?_, fun _ h => absurd h (Option.some_ne_none _).symm⟩
      obtain ⟨path, offset, length, buf⟩ := c
      rcases path with _ | path <;> rcases buf with _ | buf <;> rfl
    · have hgives := gives_readFile (mt.fs.tame_answers codecs) mt.fs c.path c.offset c.length c.buf
      obtain ⟨hread, hfresh⟩ := serveHandle_gives hgives (hm mt rfl)
      refine ⟨congrArg (replying FsReply.memory) hread, fun mt' h => ?_⟩
      cases h
      exact hfresh
  | volumeInfo info => exact ⟨rfl, fun mt h => by subst h; exact hm mt rfl⟩
  | struct call attr => exact ⟨rfl, fun mt h => by subst h; exact hm mt rfl⟩
  | isExportable => exact ⟨rfl, fun mt h => by subst h; exact hm mt rfl⟩
  | buffer call bufsize memory => exact ⟨rfl, fun mt h => by subst h; exact hm mt rfl⟩

end Handles

/-! ## Iterators -/

section Iterators

variable {iters : List (Option DirIter)} {listings : List (List Dirent)}
  {gave gave' : Nat → List (Option Dirent)}

/-- An iterator that is not given back stands behind what it gave, and every iterator gave its
entries in order and then NULL. -/
structure Stands (iters : List (Option DirIter)) (listings : List (List Dirent))
    (gave : Nat → List (Option Dirent)) : Prop where
  length_eq : iters.length = listings.length
  iter : ∀ (i : Nat) (it : DirIter), iters[i]? = some (some it) →
    listings[i]? = some it.entries ∧ it.position = min (gave i).length it.entries.length
  inOrder : ∀ i entries, listings[i]? = some entries →
    gave i = (List.range (gave i).length).map fun k => entries[k]?
  unopened : ∀ i, iters.length ≤ i → gave i = []

theorem Stands.of_eq (h : Stands iters listings gave) {listings' : List (List Dirent)}
    (hlistings : listings' = listings) (hgave : ∀ i, gave' i = gave i) :
    Stands iters listings' gave' := by
  rw [hlistings, funext hgave]
  exact h

theorem Stands.push (h : Stands iters listings gave) (entries : List Dirent) :
    Stands (iters ++ [some ⟨entries, 0⟩]) (listings ++ [entries]) gave := by
  have hnew : gave iters.length = [] := h.unopened _ (Nat.le_refl _)
  refine ⟨by simp [h.length_eq], fun i it hi => ?_, fun i es hi => ?_, fun i hi => ?_⟩
  · rw [List.getElem?_append] at hi ⊢
    rw [← h.length_eq]
    split at hi
    · rename_i hlt
      rw [if_pos hlt]
      exact h.iter i it hi
    · rename_i hlt
      rw [if_neg hlt]
      rw [List.getElem?_singleton] at hi
      split at hi
      · rename_i hzero
        cases hi
        have hlen : i = iters.length := by omega
        rw [hzero, hlen, hnew]
        exact ⟨rfl, (Nat.zero_min _).symm⟩
      · cases hi
  · rw [List.getElem?_append] at hi
    split at hi
    · exact h.inOrder i es hi
    · rename_i hlt
      rw [h.unopened i (by rw [h.length_eq]; omega)]
      rfl
  · rw [List.length_append] at hi
    exact h.unopened i (by omega)

theorem Stands.close (h : Stands iters listings gave) (i : Nat) :
    Stands (iters.set i none) listings gave := by
  refine ⟨by rw [List.length_set]; exact h.length_eq, fun j it hj => ?_, h.inOrder,
    fun j hj => h.unopened j (by rwa [List.length_set] at hj)⟩
  rw [List.getElem?_set] at hj
  split at hj
  · split at hj
    · cases hj
    · cases hj
  · exact h.iter j it hj

/-- **One more entry**, or NULL: the next of the iterator's listing. -/
theorem Stands.next (h : Stands iters listings gave) {i : Nat} {it : DirIter}
    (hi : iters[i]? = some (some it)) (hgave : gave' i = gave i ++ [(dirNext it).1])
    (hothers : ∀ j, j ≠ i → gave' j = gave j) :
    (dirNext it).1 = it.entries[(gave i).length]? ∧
      Stands (iters.set i (some (dirNext it).2)) listings gave' := by
  obtain ⟨hlisting, hposition⟩ := h.iter i it hi
  have hlt : i < iters.length := (List.getElem?_eq_some_iff.mp hi).1
  have hentry : (dirNext it).1 = it.entries[(gave i).length]? ∧
      (dirNext it).2.entries = it.entries ∧
      (dirNext it).2.position = min ((gave i).length + 1) it.entries.length := by
    unfold dirNext
    rw [hposition]
    by_cases hin : (gave i).length < it.entries.length
    · rw [Nat.min_eq_left (Nat.le_of_lt hin), List.getElem?_eq_getElem hin]
      exact ⟨rfl, rfl, (Nat.min_eq_left hin).symm⟩
    · have hout := Nat.le_of_not_lt hin
      rw [Nat.min_eq_right hout, List.getElem?_eq_none (Nat.le_refl _), List.getElem?_eq_none hout]
      exact ⟨rfl, rfl, by rw [hposition]; omega⟩
  obtain ⟨hfirst, hentries, hpos⟩ := hentry
  refine ⟨hfirst, by rw [List.length_set]; exact h.length_eq, fun j it' hj => ?_,
    fun j es hj => ?_, fun j hj => ?_⟩
  · rw [List.getElem?_set] at hj
    split at hj
    · rename_i hij
      subst hij
      cases hj
      rw [hentries, hgave, List.length_append]
      exact ⟨hlisting, hpos⟩
    · rename_i hij
      rw [hothers j (Ne.symm hij)]
      exact h.iter j it' hj
  · by_cases hij : j = i
    · subst hij
      obtain rfl := Option.some.inj (hlisting.symm.trans hj)
      rw [hgave, List.length_append, List.length_singleton, List.range_succ, List.map_append,
        ← h.inOrder j _ hlisting, hfirst]
      rfl
    · rw [hothers j hij]
      exact h.inOrder j es hj
  · rw [List.length_set] at hj
    rw [hothers j (by omega)]
    exact h.unopened j hj

end Iterators

/-! ## Runs -/

section Runs

variable {ι : Type} [DecidableEq ι] {env : Platform} {p p' : Process ι} {h : List (Event ι)} {t : ι}
  {call : ProcessCall} {reply : ProcessReply}

/-- The process is what its history comes to. -/
structure Represents (env : Platform) (p : Process ι) (h : List (Event ι)) : Prop where
  mounts : Backed env.codecs p.mounts (mounted env h)
  iters : Stands p.iters (opened env h) (given · h)
  errno : ∀ t, p.errno t = errnoOf env t h

theorem represents_start : Represents env (.start : Process ι) [] :=
  ⟨⟨rfl, fun _ _ h => absurd h (Option.some_ne_none _).symm⟩,
    ⟨rfl, nofun, nofun, fun _ _ => rfl⟩, fun _ => rfl⟩

/-- A live handle leads to the image mounted at it. -/
theorem Represents.deref (hrep : Represents env p h) {fs : Option Nat} {m : Option Mount}
    (hm : Process.deref p.mounts fs = some m) :
    fsAt env h fs = m.map (·.fs) ∧
      ∀ mt, m = some mt → Fresh (mt.fs.answers env.codecs) mt.fs mt.last := by
  cases fs with
  | none =>
    cases hm
    exact ⟨rfl, fun _ h => absurd h (Option.some_ne_none _).symm⟩
  | some i =>
    obtain ⟨mt, rfl, hi⟩ := deref_some hm
    obtain ⟨himage, hfresh⟩ := hrep.mounts.mount i mt hi
    refine ⟨himage, fun mt' heq => ?_⟩
    cases heq
    exact hfresh

omit [DecidableEq ι] in
theorem mounted_same (hmounts : call.mounts env = none) :
    mounted env (⟨t, call, reply⟩ :: h) = mounted env h := by
  show mounted env h ++ (call.mounts env).toList = _
  rw [hmounts]
  exact List.append_nil _

omit [DecidableEq ι] in
theorem opened_same (hopens : call.opens env h = none) :
    opened env (⟨t, call, reply⟩ :: h) = opened env h := by
  show opened env h ++ (call.opens env h).toList = _
  rw [hopens]
  exact List.append_nil _

/-- A call that reports sets its thread's number and no other. -/
theorem errnoOf_reported {r : Report ProcessReply} (hr : reported env h call = some (some r))
    (herrno : ∀ t, p.errno t = errnoOf env t h) (t' : ι) :
    Function.update p.errno t r.errno t' = errnoOf env t' (⟨t, call, reply⟩ :: h) := by
  unfold errnoOf
  rw [hr]
  dsimp only
  rw [Function.update_apply, herrno]

/-- A call that does not report leaves every number. -/
theorem errnoOf_silent (hr : reported env h call = none)
    (herrno : ∀ t, p.errno t = errnoOf env t h) (t' : ι) :
    p.errno t' = errnoOf env t' (⟨t, call, reply⟩ :: h) := by
  unfold errnoOf
  rw [hr]
  exact herrno t'

theorem answer_reported {r : Report ProcessReply} (hr : reported env h call = some (some r)) :
    answer env h t call = some r.value := by
  unfold answer
  rw [hr]
  rfl

/-- A mount gives out a new handle, or NULL with its error number. -/
theorem Represents.mounting (hrep : Represents env p h) {r : Outcome Nat Filesystem}
    (hmounts : call.mounts env = r.toOption) (hopens : call.opens env h = none)
    (hgiven : ∀ i, given i (⟨t, call, reply⟩ :: h) = given i h)
    (hreported : reported env h call = some ((report none (some <$> r)).map fun r =>
      ⟨.mounted (r.value.map fun _ => (mounted env h).length), r.errno⟩))
    (hcall : p.mounting t r = some (reply, p')) :
    answer env h t call = some reply ∧ Represents env p' (⟨t, call, reply⟩ :: h) := by
  have hiters : Stands p.iters (opened env (⟨t, call, reply⟩ :: h))
      (given · (⟨t, call, reply⟩ :: h)) := by
    simp only [opened_same hopens, hgiven]
    exact hrep.iters
  rcases r with (e | - | -) | fs
  · cases hcall
    refine ⟨answer_reported hreported, ?_, hiters, errnoOf_reported hreported hrep.errno⟩
    rw [mounted_same hmounts]
    exact hrep.mounts
  · cases hcall
    refine ⟨answer_reported hreported, ?_, hiters, errnoOf_reported hreported hrep.errno⟩
    rw [mounted_same hmounts]
    exact hrep.mounts
  · cases hcall
  · cases hcall
    refine ⟨?_, ?_, hiters, errnoOf_reported hreported hrep.errno⟩
    · rw [answer_reported hreported]
      exact congrArg (fun n => some (ProcessReply.mounted (some n))) hrep.mounts.length_eq.symm
    · show Backed env.codecs _ (mounted env h ++ (call.mounts env).toList)
      rw [hmounts]
      exact hrep.mounts.push fs

/-- A call on a handle. -/
theorem Represents.onFs (hrep : Represents env p h) {fs : Option Nat} {c : FsCall}
    (hcall : p.perform env t (.onFs fs c) = some (reply, p')) :
    answer env h t (.onFs fs c) = some reply ∧
      Represents env p' (⟨t, .onFs fs c, reply⟩ :: h) := by
  obtain ⟨m, hm, hcall⟩ := Option.bind_eq_some_iff.mp hcall
  obtain ⟨report, hreport, hcall⟩ := Option.bind_eq_some_iff.mp hcall
  cases hcall
  obtain ⟨himage, hfresh⟩ := hrep.deref hm
  obtain ⟨hafresh, hleft⟩ := FsCall.perform_afresh m c hfresh
  rw [hreport, ← himage] at hafresh
  have hreported : reported env h (.onFs fs c) =
      some (some ⟨.onFs report.value, report.errno⟩) := by
    unfold reported
    dsimp only
    rw [← hafresh]
    rfl
  refine ⟨answer_reported hreported, ?_, hrep.iters.of_eq (opened_same rfl) fun _ => rfl,
    errnoOf_reported hreported hrep.errno⟩
  rw [mounted_same rfl]
  cases fs with
  | none => exact hrep.mounts
  | some i =>
    obtain ⟨mt, rfl, hi⟩ := deref_some hm
    refine hrep.mounts.set i fun m' hm' => ?_
    cases hm'
    exact ⟨(hrep.mounts.mount i mt hi).1, hleft mt rfl⟩

/-- An iterator is opened in front of its first entry. -/
theorem dirOpen_position {f : ∀ q, Reply q} {fs : Option Filesystem} {path : Option Bytes}
    {r : Report (Option DirIter)} {iter : DirIter}
    (hr : ((Capi.dirOpen fs path).run f).1 = some r) (hiter : r.value = some iter) :
    iter.position = 0 := by
  unfold Capi.dirOpen at hr
  rw [run_ffiGuard] at hr
  rcases hx : Stateful.exec f (dirOpenBody fs path) () with ⟨(e | - | -) | value, s⟩
  · rw [hx] at hr
    cases hr
    cases hiter
  · rw [hx] at hr
    cases hr
    cases hiter
  · rw [hx] at hr
    cases hr
  · rw [hx] at hr
    cases hr
    subst hiter
    unfold dirOpenBody at hx
    split at hx
    · obtain ⟨inode, s₁, -, hx⟩ := Stateful.exec_bind_eq_ok.mp hx
      split at hx
      · cases hx
      · obtain ⟨es, s₂, -, hx⟩ := Stateful.exec_bind_eq_ok.mp hx
        obtain ⟨ds, s₃, -, hx⟩ := Stateful.exec_bind_eq_ok.mp hx
        cases hx
        rfl
    · cases hx

/-- An iterator opened. -/
theorem Represents.dirOpen (hrep : Represents env p h) {fs : Option Nat} {path : Option Bytes}
    (hcall : p.perform env t (.dirOpen fs path) = some (reply, p')) :
    answer env h t (.dirOpen fs path) = some reply ∧
      Represents env p' (⟨t, .dirOpen fs path, reply⟩ :: h) := by
  obtain ⟨m, hm, hcall⟩ := Option.bind_eq_some_iff.mp hcall
  obtain ⟨report, hreport, hcall⟩ := Option.bind_eq_some_iff.mp hcall
  rw [← (hrep.deref hm).1] at hreport
  have hreported : reported env h (.dirOpen fs path) =
      some (some ⟨.opened (report.value.map fun _ => (opened env h).length), report.errno⟩) := by
    unfold reported
    dsimp only
    rw [hreport]
    rfl
  have hopens : (ProcessCall.dirOpen fs path).opens env h = report.value.map (·.entries) := by
    unfold ProcessCall.opens
    dsimp only
    rw [hreport]
    rfl
  have hmounts : Backed env.codecs p.mounts (mounted env (⟨t, .dirOpen fs path, reply⟩ :: h)) := by
    rw [mounted_same rfl]
    exact hrep.mounts
  rcases hvalue : report.value with _ | iter
  · rw [hvalue] at hcall hopens hreported
    cases hcall
    exact ⟨answer_reported hreported, hmounts, hrep.iters.of_eq (opened_same hopens) fun _ => rfl,
      errnoOf_reported hreported hrep.errno⟩
  · have hposition := dirOpen_position hreport hvalue
    rw [hvalue] at hcall hopens hreported
    obtain ⟨entries, position⟩ := iter
    dsimp only at hposition
    subst hposition
    cases hcall
    refine ⟨?_, hmounts, ?_, errnoOf_reported hreported hrep.errno⟩
    · rw [answer_reported hreported]
      exact congrArg (fun n => some (ProcessReply.opened (some n))) hrep.iters.length_eq.symm
    · show Stands _ (opened env h ++ ((ProcessCall.dirOpen fs path).opens env h).toList) _
      rw [hopens]
      exact hrep.iters.push entries

/-- **One call** gives what its history says, and leaves what the longer history says. -/
theorem Represents.perform (hrep : Represents env p h)
    (hcall : p.perform env t call = some (reply, p')) :
    answer env h t call = some reply ∧ Represents env p' (⟨t, call, reply⟩ :: h) := by
  cases call with
  | mount path => exact hrep.mounting rfl rfl (fun _ => rfl) rfl hcall
  | mountWithCallbacks cfg => exact hrep.mounting rfl rfl (fun _ => rfl) rfl hcall
  | umount fs =>
    obtain ⟨m, hm, hcall⟩ := Option.bind_eq_some_iff.mp hcall
    cases hcall
    refine ⟨rfl, ?_, hrep.iters.of_eq (opened_same rfl) fun _ => rfl,
      errnoOf_silent rfl hrep.errno⟩
    rw [mounted_same rfl]
    cases fs with
    | none => exact hrep.mounts
    | some i => exact hrep.mounts.set i fun _ h => absurd h (Option.some_ne_none _).symm
  | onFs fs call => exact hrep.onFs hcall
  | dirOpen fs path => exact hrep.dirOpen hcall
  | dirNext iter =>
    obtain ⟨it, hit, hcall⟩ := Option.bind_eq_some_iff.mp hcall
    have hmounts : ∀ reply, Backed env.codecs p.mounts
        (mounted env (⟨t, .dirNext iter, reply⟩ :: h)) := fun reply => by
      rw [mounted_same rfl]
      exact hrep.mounts
    cases iter with
    | none =>
      cases hcall
      exact ⟨rfl, hmounts _, hrep.iters.of_eq (opened_same rfl) fun _ => rfl,
        errnoOf_silent rfl hrep.errno⟩
    | some i =>
      obtain ⟨iter, rfl, hi⟩ := deref_some hit
      cases hcall
      have hthis : given i (⟨t, .dirNext (some i), .entry (Capi.dirNext iter).1⟩ :: h) =
          given i h ++ [(Capi.dirNext iter).1] := if_pos rfl
      have hothers : ∀ j, j ≠ i →
          given j (⟨t, .dirNext (some i), .entry (Capi.dirNext iter).1⟩ :: h) = given j h :=
        fun j hj => if_neg (Ne.symm hj)
      obtain ⟨hentry, hstands⟩ := hrep.iters.next hi hthis hothers
      refine ⟨?_, hmounts _, hstands.of_eq (opened_same rfl) fun _ => rfl,
        errnoOf_silent rfl hrep.errno⟩
      show answer env h t (.dirNext (some i)) = some (.entry (Capi.dirNext iter).1)
      rw [hentry]
      show some (ProcessReply.entry ((opened env h)[i]?.bind _)) = _
      rw [(hrep.iters.iter i iter hi).1]
      rfl
  | dirClose iter =>
    obtain ⟨it, hit, hcall⟩ := Option.bind_eq_some_iff.mp hcall
    cases hcall
    refine ⟨rfl, ?_, ?_, errnoOf_silent rfl hrep.errno⟩
    · rw [mounted_same rfl]
      exact hrep.mounts
    · cases iter with
      | none => exact hrep.iters.of_eq (opened_same rfl) fun _ => rfl
      | some i => exact (hrep.iters.close i).of_eq (opened_same rfl) fun _ => rfl
  | lastErrno =>
    cases hcall
    refine ⟨?_, ?_, hrep.iters.of_eq (opened_same rfl) fun _ => rfl,
      errnoOf_silent rfl hrep.errno⟩
    · rw [hrep.errno t]
      rfl
    · rw [mounted_same rfl]
      exact hrep.mounts

/-- **A run is what its history comes to**, and its history explains itself. -/
theorem Process.Run.represents (hrun : Process.Run env p h) :
    Explained env h ∧ Represents env p h := by
  induction hrun with
  | start => exact ⟨trivial, represents_start⟩
  | call hrun hcall ih =>
    obtain ⟨hexplained, hrep⟩ := ih
    obtain ⟨hanswer, hrep⟩ := hrep.perform hcall
    exact ⟨⟨hanswer, hexplained⟩, hrep⟩

end Runs

section Small

end Small

/-! ## A tree through a process -/

section OfTree

variable {ι : Type} [DecidableEq ι] {env : Platform} {p : Process ι} {h later : List (Event ι)}
  {e : Event ι} {i : Nat}

/-- The handle a call is made on. -/
def ProcessCall.handle : ProcessCall → Option Nat
  | .onFs fs _ => fs
  | .dirOpen fs _ => fs
  | _ => none

/-- A run up to one of its calls, and the call. -/
theorem Process.Run.before (hrun : Process.Run env p (later ++ e :: h)) :
    ∃ q q', Process.Run env q h ∧ q.perform env e.thread e.call = some (e.reply, q') := by
  induction later generalizing p with
  | nil =>
    cases hrun with
    | call hrun hcall => exact ⟨_, _, hrun, hcall⟩
  | cons e' later ih =>
    cases hrun with
    | call hrun hcall => exact ih hrun

/-- A call of a run gave its answer. -/
theorem Process.Run.answered (hrun : Process.Run env p (later ++ e :: h)) :
    answer env h e.thread e.call = some e.reply := by
  obtain ⟨q, q', hbefore, hcall⟩ := hrun.before
  exact (hbefore.represents.2.perform hcall).1

end OfTree

end Capi

end Squashfs
