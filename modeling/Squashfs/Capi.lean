import Squashfs.Blame

/-!
# The C ABI

Model of `src/capi.rs`: the guard and the error slot (43-111), C strings (135-195), the structs and
what fills them (289-390), and the entry points that fill memory, `stat`, `stat_ino`, `readlink`,
`listxattr` and `getxattr` (564-1008).

An entry point takes pointers and gives an integer or a pointer, with an error number in a slot of
its thread. A pointer is an `Option`, a C string the memory it points to, and the memory an entry
point writes its state, which survives a failure. `ffiGuard` runs the body of one: a failure becomes
the failure value and its error number, and so does a panic, which may not cross the ABI.

Out of scope: the texts of `fs_squashfs_last_error`, and pointers that point to nothing of theirs,
which the ABI leaves undefined.
-/

namespace Squashfs

open Foundation

/-- `FileType::to_abi`. -/
def FileType.toAbi : FileType → UInt8
  | .unknown => 0
  | .regFile => 1
  | .dir => 2
  | .charDev => 3
  | .blockDev => 4
  | .fifo => 5
  | .socket => 6
  | .symlink => 7

namespace Filesystem

/-- The one lookup both resolvers are. -/
def resolveId (fs : Filesystem) (idx : UInt16) (what : String) : Res UInt32 :=
  okOr (.badInode what) fs.idTable[idx.toNat]?

def resolveUid (fs : Filesystem) (idx : UInt16) : Res UInt32 :=
  fs.resolveId idx "uid index past the image's id table"

def resolveGid (fs : Filesystem) (idx : UInt16) : Res UInt32 :=
  fs.resolveId idx "gid index past the image's id table"

end Filesystem

namespace Capi

/-! ## Calls -/

/-- What a call gives and the error number it leaves. -/
structure Report (α : Type) where
  value : α
  errno : Nat
  deriving Repr, DecidableEq

/-- The body of an entry point that writes memory `σ`. It fails with an error number. -/
abbrev Body (σ α : Type) := Stateful Req Reply Nat σ α

/-- An entry point: what it gives, unless it does not return, and the memory it leaves. -/
abbrev EntryPoint (σ α : Type) := Query Req Reply (Option (Report α) × σ)

/-- What becomes of a body's result. -/
def report {α : Type} (fail : α) : Outcome Nat α → Option (Report α)
  | .ok value => some ⟨value, 0⟩
  | .error (.err errno) => some ⟨fail, errno⟩
  | .error .panic => some ⟨fail, EIO⟩
  | .error .diverge => none

/-- `ffi_guard`, around a body that clears the error slot first. -/
def ffiGuard {Q : Type} {A : Q → Type} {σ α : Type} (fail : α) (body : Stateful Q A Nat σ α)
    (s : σ) : Query Q A (Option (Report α) × σ) :=
  Query.bind (StateT.run body.run s) fun r => .ret (report fail r.1, r.2)

/-- A call of the reader whose error is reported by `set_err_from`. -/
def calling {σ α : Type} (m : Prog α) : Body σ α := Stateful.ofAsking (m.mapErr Error.toErrno)

/-- `cstr_to_bytes`: the bytes of a C string, up to its NUL. -/
def cstrToBytes (memory : Bytes) : Bytes := memory.takeWhile (· != 0)

/-- `n as i64`. -/
def asI64 (n : Nat) : Int := (Int64.ofNat n).toInt

variable {f : ∀ q, Reply q} {σ α β : Type}

/-- What an entry point comes to. -/
@[simp] theorem run_ffiGuard (fail : α) (body : Body σ α) (s : σ) :
    (ffiGuard fail body s).run f =
      (report fail (Stateful.exec f body s).1, (Stateful.exec f body s).2) := Query.run_bind f _ _

@[simp] theorem exec_calling (m : Prog α) (s : σ) :
    Stateful.exec f (calling m) s = (mapErr Error.toErrno (Asking.exec f m), s) := by
  unfold calling
  rw [Stateful.exec_ofAsking, Asking.exec_mapErr]

/-! ## Attributes of a file -/

/-- `fs_squashfs_attr_t`. -/
structure Attr where
  inode : UInt32
  mode : UInt16
  uid : UInt32
  gid : UInt32
  size : UInt64
  mtime : UInt32
  linkCount : UInt32
  fileType : UInt32
  rdev : UInt32
  deriving Repr, DecidableEq

/-- The attributes of an inode. -/
def fillAttr (fs : Filesystem) (inode : Inode) : Res Attr := do
  let uid ← fs.resolveUid inode.uidIdx
  let gid ← fs.resolveGid inode.gidIdx
  return {
    inode := inode.inodeNumber
    mode := inode.permissions &&& 0o7777
    uid := uid
    gid := gid
    size := inode.fileSize
    mtime := inode.mtime
    linkCount := inode.nlink
    fileType := inode.fileType.toAbi.toUInt32
    rdev := inode.rdev }

def statBody (fs : Option Filesystem) (path : Option Bytes) : Body (Option Attr) Int := do
  match fs, path, ← get with
  | some fs, some path, some _ =>
    let inode ← calling (fs.lookupPathBytes (cstrToBytes path))
    let attr ← (mapErr Error.toErrno (fillAttr fs inode) : Outcome Nat Attr)
    set (some attr)
    return 0
  | _, _, _ => throw (.err EINVAL)

/-- `fs_squashfs_stat`. -/
def stat (fs : Option Filesystem) (path : Option Bytes) :
    Option Attr → EntryPoint (Option Attr) Int :=
  ffiGuard (-1) (statBody fs path)

/-! ## Directories -/

/-- `SQFS_NAME_CAP`: room for the longest name and its NUL. -/
def SQFS_NAME_CAP : Nat := SQUASHFS_NAME_LEN + 1

/-- `fs_squashfs_dirent_t`. -/
structure Dirent where
  inode : UInt32
  fileType : UInt8
  nameLen : UInt16
  name : Bytes
  deriving Repr, DecidableEq

def dirEntryToAbi (e : DirEntry) : Outcome Nat Dirent := do
  let copy := min e.name.length (SQFS_NAME_CAP - 1)
  let name ← copyInto (List.replicate SQFS_NAME_CAP 0) 0 (← slice e.name 0 copy)
  let name ← store name copy 0
  return {
    inode := e.inodeNumber
    fileType := (FileType.fromTypeId e.typeId).toAbi
    nameLen := UInt16.ofNat copy
    name := name }

/-- `fs_squashfs_dir_iter_t`: the entries of a directory, and how many were handed out. -/
structure DirIter where
  entries : List Dirent
  position : Nat
  deriving Repr, DecidableEq

def dirOpenBody (fs : Option Filesystem) (path : Option Bytes) : Body Unit (Option DirIter) := do
  match fs, path with
  | some fs, some path =>
    let inode ← calling (fs.lookupPathBytes (cstrToBytes path))
    if ¬ inode.isDir then throw (.err ENOTDIR)
    else
      let entries ← calling (fs.readDir inode)
      let entries ← (entries.mapM dirEntryToAbi : Outcome Nat (List Dirent))
      return some ⟨entries, 0⟩
  | _, _ => throw (.err EINVAL)

/-- `fs_squashfs_dir_open`. -/
def dirOpen (fs : Option Filesystem) (path : Option Bytes) : EntryPoint Unit (Option DirIter) :=
  ffiGuard none (dirOpenBody fs path) ()

/-- `fs_squashfs_dir_next`: the next entry, if there is one, and the iterator after it. -/
def dirNext (iter : DirIter) : Option Dirent × DirIter :=
  match iter.entries[iter.position]? with
  | some e => (some e, { iter with position := iter.position + 1 })
  | none => (none, iter)

/-! ## Extended attributes -/

/-- `entries.iter().map(|e| e.name.len() + 1).sum()`. -/
def requiredSize (entries : List XattrEntry) : Outcome Nat Nat :=
  entries.foldlM (fun acc e => do add64 acc (← add64 e.name.length 1)) 0

/-- The loop that writes names at `pos` and on: whole names with their NULs, as many as fit. -/
def writeNames : List XattrEntry → (out : Bytes) → (pos : Nat) → Outcome Nat Bytes
  | [], out, _ => return out
  | e :: es, out, pos => do
    let needed ← add64 e.name.length 1
    let stop ← add64 pos needed
    if out.length < stop then return out
    else
      let out ← copyInto out pos e.name
      let out ← store out (← add64 pos e.name.length) 0
      writeNames es out stop

def listxattrBody (fs : Option Filesystem) (path : Option Bytes) : Body (Option Bytes) Int := do
  match fs, path with
  | some fs, some path =>
    let inode ← calling (fs.lookupPathBytes (cstrToBytes path))
    let entries ← calling (fs.listXattrs inode)
    let required ← (requiredSize entries : Outcome Nat Nat)
    match ← get with
    | none => return asI64 required
    | some buf =>
      if buf.isEmpty then return asI64 required
      else
        let out ← (writeNames entries buf 0 : Outcome Nat Bytes)
        set (some out)
        return asI64 required
  | _, _ => throw (.err EINVAL)

/-- `fs_squashfs_listxattr`. -/
def listxattr (fs : Option Filesystem) (path : Option Bytes) :
    Option Bytes → EntryPoint (Option Bytes) Int :=
  ffiGuard (-1) (listxattrBody fs path)

def getxattrBody (fs : Option Filesystem) (path name : Option Bytes) : Body (Option Bytes) Int := do
  match fs, path, name with
  | some fs, some path, some name =>
    let inode ← calling (fs.lookupPathBytes (cstrToBytes path))
    match ← calling (fs.getXattr inode (cstrToBytes name)) with
    | none => throw (.err ENOENT)
    | some value =>
      match ← get with
      | none => return asI64 value.length
      | some buf =>
        if buf.isEmpty then return asI64 value.length
        else
          let take := min value.length buf.length
          let src ← (slice value 0 take : Outcome Nat Bytes)
          let out ← (copyInto buf 0 src : Outcome Nat Bytes)
          set (some out)
          return asI64 value.length
  | _, _, _ => throw (.err EINVAL)

/-- `fs_squashfs_getxattr`. -/
def getxattr (fs : Option Filesystem) (path name : Option Bytes) :
    Option Bytes → EntryPoint (Option Bytes) Int :=
  ffiGuard (-1) (getxattrBody fs path name)

/-! ## What the calls give -/

/-- A C string without NUL is read back up to the one that ends it. -/
theorem cstrToBytes_append {s rest : Bytes} (h : (0 : UInt8) ∉ s) :
    cstrToBytes (s ++ 0 :: rest) = s := by
  have hs : ∀ b ∈ s, (b != 0) = true := by
    intro b hb
    rw [bne_iff_ne]
    rintro rfl
    exact h hb
  unfold cstrToBytes
  rw [List.takeWhile_append_of_pos hs]
  simp

/-- What `stat` makes of the inode its path resolves to. -/
def statOf (fs : Filesystem) (attr : Attr) (r : Res Inode) : Option (Report Int) × Option Attr :=
  match r >>= fillAttr fs with
  | .ok attr' => (some ⟨0, 0⟩, some attr')
  | .error (.err e) => (some ⟨-1, e.toErrno⟩, some attr)
  | .error .panic => (some ⟨-1, EIO⟩, some attr)
  | .error .diverge => (none, some attr)

/-- **`stat` resolves its path** and fills the caller's struct, or leaves it as it was. -/
theorem run_stat (fs : Filesystem) (path : Bytes) (attr : Attr) :
    (stat (some fs) (some path) (some attr)).run f =
      statOf fs attr (Asking.exec f (fs.lookupPathBytes (cstrToBytes path))) := by
  unfold stat statBody
  rw [run_ffiGuard, Stateful.exec_get_bind]
  dsimp only
  rw [Stateful.exec_bind, exec_calling]
  unfold statOf
  rcases Asking.exec f (fs.lookupPathBytes (cstrToBytes path)) with (e | - | -) | inode
  · rfl
  · rfl
  · rfl
  · rw [mapErr_ok, ok_bind]
    dsimp only
    rw [Stateful.exec_bind, Stateful.exec_lift]
    rcases fillAttr fs inode with (e | - | -) | attr' <;> rfl

/-- **An entry's name fits its buffer** whole, with a NUL behind it. -/
theorem dirEntryToAbi_listed {e : DirEntry} (h : ListedName e.name) :
    dirEntryToAbi e = .ok {
      inode := e.inodeNumber
      fileType := (FileType.fromTypeId e.typeId).toAbi
      nameLen := UInt16.ofNat e.name.length
      name := e.name ++ 0 :: List.replicate (SQUASHFS_NAME_LEN - e.name.length) 0 } := by
  have hlen := h.length_le
  have hcopy : min e.name.length (SQFS_NAME_CAP - 1) = e.name.length := Nat.min_eq_left hlen
  have hcopied : e.name.length ≤ SQFS_NAME_CAP := by
    unfold SQFS_NAME_CAP
    omega
  have hsrc : (e.name.drop 0).take (e.name.length - 0) = e.name := by
    rw [List.drop_zero, Nat.sub_zero, List.take_length]
  have hfilled : (List.replicate SQFS_NAME_CAP (0 : UInt8)).take 0 ++ e.name ++
      (List.replicate SQFS_NAME_CAP 0).drop (0 + e.name.length) =
        e.name ++ 0 :: List.replicate (SQUASHFS_NAME_LEN - e.name.length) 0 := by
    rw [List.take_zero, List.nil_append, Nat.zero_add, List.drop_replicate, ← List.replicate_succ]
    congr 2
    unfold SQFS_NAME_CAP
    omega
  unfold dirEntryToAbi
  dsimp only
  rw [hcopy, slice_ok (Nat.zero_le _) (Nat.le_refl _), ok_bind, hsrc,
    copyInto_ok (by rw [Nat.zero_add, List.length_replicate]; exact hcopied), ok_bind, hfilled,
    store_ok (by rw [List.length_append, List.length_cons]; omega), ok_bind]
  rw [List.set_append_right _ _ (Nat.le_refl _), Nat.sub_self, List.set_cons_zero]
  rfl

end Capi

end Squashfs
