import Squashfs.AttributeList

/-!
# Buffers of the C ABI

About the five entry points of `src/capi.rs` (564-643, 802-1008) that fill memory of the caller: a
buffer of `bufsize` bytes for `listxattr`, `getxattr` and `readlink`, a struct for `stat` and
`statIno`. Each fetches all that it gives before it writes a byte (`Served`).

**`buffer_contract`**: the values of `listxattr` and `getxattr` do not depend on the buffer, each
call writes exactly the bytes it promises and no others, and a call that gives -1 writes nothing.
-/

namespace Squashfs

open Foundation Filesystem

namespace Capi

/-! ## The entry points -/

/-- `c_int::MAX`. -/
def C_INT_MAX : Nat := 2 ^ 31 - 1

def readlinkBody (fs : Option Filesystem) (path : Option Bytes) (bufsize : Nat) :
    Body (Option Bytes) Int := do
  match fs, path, ← get with
  | some fs, some path, some memory =>
    let inode ← calling (fs.lookupPathBytes (cstrToBytes path))
    if ¬ inode.isSymlink then throw (.err EINVAL)
    else
      let target := inode.symlinkTarget
      if C_INT_MAX < target.length then throw (.err ERANGE)
      else
        let needed ← (add64 target.length 1 : Outcome Nat Nat)
        if bufsize < needed then throw (.err ERANGE)
        else
          let memory ← (copyInto memory 0 target : Outcome Nat Bytes)
          set (some memory)
          let memory ← (store memory target.length 0 : Outcome Nat Bytes)
          set (some memory)
          return target.length
  | _, _, _ => throw (.err EINVAL)

/-- `fs_squashfs_readlink`, over the memory at `buf`. -/
def readlink (fs : Option Filesystem) (path : Option Bytes) (bufsize : Nat) :
    Option Bytes → EntryPoint (Option Bytes) Int :=
  ffiGuard (-1) (readlinkBody fs path bufsize)

def statInoBody (fs : Option Filesystem) (inodeNumber : UInt32) : Body (Option Attr) Int := do
  match fs, ← get with
  | some fs, some _ =>
    let inode ← calling (fs.readInodeByNumber inodeNumber)
    let attr ← (mapErr Error.toErrno (fillAttr fs inode) : Outcome Nat Attr)
    set (some attr)
    return 0
  | _, _ => throw (.err EINVAL)

/-- `fs_squashfs_stat_ino`. -/
def statIno (fs : Option Filesystem) (inodeNumber : UInt32) :
    Option Attr → EntryPoint (Option Attr) Int :=
  ffiGuard (-1) (statInoBody fs inodeNumber)

/-- A call that takes the first `bufsize` bytes of the memory at its pointer as its buffer:
`from_raw_parts_mut(buf, bufsize)`. -/
def onBuffer (bufsize : Nat) (call : Option Bytes → EntryPoint (Option Bytes) Int) :
    Option Bytes → EntryPoint (Option Bytes) Int
  | none => call none
  | some memory => Query.bind (call (some (memory.take bufsize))) fun r =>
    .ret (r.1, r.2.map (· ++ memory.drop bufsize))

/-! ## What the calls fetch -/

variable {f : ∀ q, Reply q} {handle : Option Filesystem} {α σ : Type}

/-- What a call makes of the inode at a path. -/
def atPath (f : ∀ q, Reply q) (handle : Option Filesystem) (path : Option Bytes)
    (get : Filesystem → Inode → Outcome Nat α) : Outcome Nat α :=
  match handle, path with
  | some fs, some path =>
    mapErr Error.toErrno (Asking.exec f (fs.lookupPathBytes (cstrToBytes path))) >>= get fs
  | _, _ => .error (.err EINVAL)

/-- The attributes of the inode at a path. -/
def attributes (f : ∀ q, Reply q) (handle : Option Filesystem) (path : Option Bytes) :
    Outcome Nat (List XattrEntry) :=
  atPath f handle path fun fs inode => mapErr Error.toErrno (Asking.exec f (fs.listXattrs inode))

/-- The value of one attribute. -/
def attributeValue (f : ∀ q, Reply q) (handle : Option Filesystem) (path name : Option Bytes) :
    Outcome Nat Bytes :=
  match name with
  | none => .error (.err EINVAL)
  | some name => atPath f handle path fun fs inode => do
    match ← mapErr Error.toErrno (Asking.exec f (fs.getXattr inode (cstrToBytes name))) with
    | some value => return value
    | none => .error (.err ENOENT)

/-- The target of the symlink at a path. -/
def linkTarget (f : ∀ q, Reply q) (handle : Option Filesystem) (path : Option Bytes) :
    Outcome Nat Bytes :=
  atPath f handle path fun _ inode =>
    if inode.isSymlink then return inode.symlinkTarget else .error (.err EINVAL)

/-- The attributes of the inode at a path, as `stat` gives them. -/
def attrAt (f : ∀ q, Reply q) (handle : Option Filesystem) (path : Option Bytes) :
    Outcome Nat Attr :=
  atPath f handle path fun fs inode => mapErr Error.toErrno (fillAttr fs inode)

/-- The attributes of the inode with a number. -/
def attrOf (f : ∀ q, Reply q) (handle : Option Filesystem) (inodeNumber : UInt32) :
    Outcome Nat Attr :=
  match handle with
  | some fs => mapErr Error.toErrno (Asking.exec f (fs.readInodeByNumber inodeNumber)) >>= fun inode =>
    mapErr Error.toErrno (fillAttr fs inode)
  | none => .error (.err EINVAL)

/-- What a call that fetches something and then writes it comes to: a failure writes nothing. -/
def served (found : Outcome Nat α) (value : α → Int) (write : α → σ → σ) (s : σ) :
    Option (Report Int) × σ :=
  match found with
  | .ok a => (some ⟨value a, 0⟩, write a s)
  | .error e => (report (-1) (.error e), s)

/-- The memory with `w` written at its start, if there is any. -/
def filled (w : Bytes) (memory : Option Bytes) : Option Bytes :=
  memory.map fun m => w ++ m.drop w.length

theorem paste_zero (m w : Bytes) : paste m 0 w = w ++ m.drop w.length := by
  rw [paste, List.take_zero, List.nil_append, Nat.zero_add]

/-- The caller owns at least `bufsize` bytes, or passed NULL. -/
def Room (bufsize : Nat) (memory : Option Bytes) : Prop := ∀ m ∈ memory, bufsize ≤ m.length

/-- `fitted` is the longest prefix of the names that fits whole into `room` bytes. -/
def LongestFit (entries : List XattrEntry) (room : Nat) (fitted : List XattrEntry) : Prop :=
  fitted <+: entries ∧ (nameBlob fitted).length ≤ room ∧
    ∀ l, l <+: entries → (nameBlob l).length ≤ room → l <+: fitted

theorem fitting_longest (entries : List XattrEntry) (room : Nat) :
    LongestFit entries room (fitting entries room) := by
  induction entries generalizing room with
  | nil =>
    refine ⟨List.prefix_refl [], Nat.zero_le room, fun l hl _ => hl⟩
  | cons e es ih =>
    rw [fitting]
    by_cases hroom : room < e.name.length + 1
    · rw [if_pos hroom]
      refine ⟨List.nil_prefix, Nat.zero_le room, fun l hl hlen => ?_⟩
      rcases l with - | ⟨e', l⟩
      · exact List.nil_prefix
      · obtain ⟨rfl, -⟩ := List.cons_prefix_cons.mp hl
        rw [nameBlob_cons, List.length_append, List.length_cons] at hlen
        omega
    · obtain ⟨hpre, hlen, hlongest⟩ := ih (room - (e.name.length + 1))
      rw [if_neg hroom]
      refine ⟨List.cons_prefix_cons.mpr ⟨rfl, hpre⟩, ?_, fun l hl hle => ?_⟩
      · rw [nameBlob_cons, List.length_append, List.length_cons]
        omega
      · rcases l with - | ⟨e', l⟩
        · exact List.nil_prefix
        · obtain ⟨rfl, hrest⟩ := List.cons_prefix_cons.mp hl
          rw [nameBlob_cons, List.length_append, List.length_cons] at hle
          exact List.cons_prefix_cons.mpr ⟨rfl, hlongest l hrest (by omega)⟩

/-! ## Fetching before writing -/

section Serves

variable {β : Type} {s : σ} {body : Body σ Int} {found : Outcome Nat α} {value : α → Int}
  {write : α → σ → σ}

theorem run_calling_ok {m : Prog β} {g : β → Body σ Int} {b : β} (h : Asking.exec f m = .ok b) :
    (ffiGuard (-1) (calling m >>= g) s).run f = (ffiGuard (-1) (g b) s).run f := by
  rw [run_ffiGuard, run_ffiGuard, Stateful.exec_bind, exec_calling, h]
  rfl

/-- A call of the reader that fails ends the entry point. -/
theorem run_calling_error {m : Prog β} {g : β → Body σ Int} {e : Fail Error}
    (h : Asking.exec f m = .error e) (k : β → Outcome Nat α) :
    (ffiGuard (-1) (calling m >>= g) s).run f =
      served (mapErr Error.toErrno (.error e) >>= k) value write s := by
  rw [run_ffiGuard, Stateful.exec_bind, exec_calling, h]
  cases e <;> rfl

end Serves

variable {path name : Option Bytes}

theorem run_listxattr_served (hf : Tame f) (buf : Option Bytes) :
    (listxattr handle path buf).run f =
      served (attributes f handle path) (fun entries => (nameBlob entries).length)
        (fun entries => Option.map fun b => paste b 0 (nameBlob (fitting entries b.length))) buf := by
  rcases handle with - | fs
  · rfl
  rcases path with - | path
  · rfl
  unfold attributes atPath
  dsimp only
  rcases hpath : Asking.exec f (fs.lookupPathBytes (cstrToBytes path)) with e | inode
  · exact run_calling_error hpath _
  · rw [mapErr_ok, ok_bind]
    rcases hentries : Asking.exec f (fs.listXattrs inode) with e | entries
    · rw [← bind_pure (mapErr _ _)]
      exact (run_calling_ok hpath).trans (run_calling_error hentries pure)
    · exact run_listxattr hpath hentries (sizes_of_listXattrs hf hentries).1 buf

theorem run_getxattr_served (hf : Tame f) (buf : Option Bytes) :
    (getxattr handle path name buf).run f =
      served (attributeValue f handle path name) (fun value => value.length)
        (fun value => Option.map fun b => paste b 0 (value.take b.length)) buf := by
  rcases handle with - | fs
  · cases name <;> rfl
  rcases path with - | path
  · cases name <;> rfl
  rcases name with - | name
  · rfl
  unfold attributeValue atPath
  dsimp only
  rcases hpath : Asking.exec f (fs.lookupPathBytes (cstrToBytes path)) with e | inode
  · exact run_calling_error hpath _
  · rw [mapErr_ok, ok_bind]
    rcases hvalue : Asking.exec f (fs.getXattr inode (cstrToBytes name)) with e | - | value
    · exact (run_calling_ok hpath).trans (run_calling_error hvalue _)
    · refine (run_calling_ok hpath).trans ((run_calling_ok hvalue).trans ?_)
      rw [run_ffiGuard]
      rfl
    · obtain ⟨entries, hentries, hfind⟩ : ∃ entries, Asking.exec f (fs.listXattrs inode) = .ok entries ∧
          (entries.find? (·.name == cstrToBytes name)).map (·.value) = some value := by
        unfold getXattr at hvalue
        rw [Asking.exec_bind] at hvalue
        obtain ⟨entries, hentries, hvalue⟩ := bind_eq_ok.mp hvalue
        exact ⟨entries, hentries, Except.ok.inj hvalue⟩
      obtain ⟨e, he, rfl⟩ := Option.map_eq_some_iff.mp hfind
      exact run_getxattr hpath hvalue
        ((sizes_of_listXattrs hf hentries).2 e (List.mem_of_find?_eq_some he)) buf

theorem run_stat_served (attr : Attr) :
    (stat handle path (some attr)).run f =
      served (attrAt f handle path) (fun _ => 0) (fun attr' _ => some attr') (some attr) := by
  rcases handle with - | fs
  · rfl
  rcases path with - | path
  · rfl
  rw [run_stat]
  unfold statOf attrAt atPath
  dsimp only
  rw [← mapErr_bind]
  rcases Asking.exec f (fs.lookupPathBytes (cstrToBytes path)) >>= fillAttr fs with
    (e | - | -) | attr' <;> rfl

/-- A symlink's target has its bound. -/
theorem symlinkTarget_le (hf : Tame f) {fs : Filesystem} {p : Bytes} {inode : Inode}
    (h : Asking.exec f (fs.lookupPathBytes p) = .ok inode) :
    inode.symlinkTarget.length ≤ 65536 := by
  obtain ⟨inodeRef, hread⟩ := readInode_of_lookup h
  obtain ⟨header, r, hvalid, rfl, -⟩ := (Inode.exec_read hf fs.sb inodeRef inode).mp hread
  cases r with
  | basicSymlink nlink target => exact hvalid
  | extSymlink nlink target xattr => exact hvalid
  | _ => exact Nat.zero_le _

/-- What `readlink` writes: the target, when there is room for it and its NUL. -/
def roomyTarget (f : ∀ q, Reply q) (handle : Option Filesystem) (path : Option Bytes)
    (bufsize : Nat) : Outcome Nat Bytes := do
  let target ← linkTarget f handle path
  if bufsize < target.length + 1 then .error (.err ERANGE) else return target

theorem run_readlink_served (hf : Tame f) {bufsize : Nat} {m : Bytes} (hm : bufsize ≤ m.length) :
    (readlink handle path bufsize (some m)).run f =
      served (roomyTarget f handle path bufsize) (fun target => target.length)
        (fun target => filled (target ++ [0])) (some m) := by
  rcases handle with - | fs
  · rfl
  rcases path with - | path
  · rfl
  unfold roomyTarget linkTarget atPath
  dsimp only
  rw [bind_assoc]
  unfold readlink readlinkBody
  rw [run_ffiGuard, Stateful.exec_get_bind]
  dsimp only
  rw [← run_ffiGuard]
  rcases hpath : Asking.exec f (fs.lookupPathBytes (cstrToBytes path)) with e | inode
  · exact run_calling_error hpath _
  refine (run_calling_ok hpath).trans ?_
  have htarget := symlinkTarget_le hf hpath
  rw [mapErr_ok, ok_bind, run_ffiGuard]
  by_cases hlink : inode.isSymlink = true
  · rw [if_neg (not_not_intro hlink), if_pos hlink, pure_bind]
    have hneeded : (add64 inode.symlinkTarget.length 1 : Outcome Nat Nat) =
        .ok (inode.symlinkTarget.length + 1) := add64_ok (by unfold wordSize; omega)
    rw [if_neg (by unfold C_INT_MAX; omega), Stateful.exec_lift_bind hneeded]
    by_cases hroom : bufsize < inode.symlinkTarget.length + 1
    · rw [if_pos hroom, if_pos hroom]
      rfl
    · have hlen : (paste m 0 inode.symlinkTarget).length = m.length := paste_length (by omega)
      have hcopy : (copyInto m 0 inode.symlinkTarget : Outcome Nat Bytes) =
          .ok (paste m 0 inode.symlinkTarget) := copyInto_ok (by omega)
      have hstore : (store (paste m 0 inode.symlinkTarget) inode.symlinkTarget.length 0 :
          Outcome Nat Bytes) = .ok (paste m 0 (inode.symlinkTarget ++ [0])) := by
        have hnext := @paste_paste _ m inode.symlinkTarget [0] 0 (by omega)
        rw [Nat.zero_add, paste_singleton (by omega)] at hnext
        rw [store_ok (by omega), hnext]
      rw [if_neg hroom, if_neg hroom, Stateful.exec_lift_bind hcopy, Stateful.exec_set_bind,
        Stateful.exec_lift_bind hstore, Stateful.exec_set_bind]
      show _ = (some (Report.mk (inode.symlinkTarget.length : Int) 0), some (_ ++ _))
      rw [← paste_zero]
      rfl
  · rw [if_pos hlink, if_neg hlink]
    rfl

theorem run_statIno_served (n : UInt32) (attr : Attr) :
    (statIno handle n (some attr)).run f =
      served (attrOf f handle n) (fun _ => 0) (fun attr' _ => some attr') (some attr) := by
  rcases handle with - | fs
  · rfl
  unfold statIno statInoBody attrOf
  rw [run_ffiGuard, Stateful.exec_get_bind]
  dsimp only
  rw [← run_ffiGuard]
  rcases hread : Asking.exec f (fs.readInodeByNumber n) with e | inode
  · exact run_calling_error hread _
  · refine (run_calling_ok hread).trans ?_
    rw [run_ffiGuard, Stateful.exec_bind, Stateful.exec_lift, mapErr_ok, ok_bind]
    rcases fillAttr fs inode with (e | - | -) | attr' <;> rfl

/-! ## What is fetched is fetched or refused -/

theorem returns_atPath (hf : Tame f) {get : Filesystem → Inode → Outcome Nat α}
    (hget : ∀ fs inode, Returns (get fs inode)) : Returns (atPath f handle path get) := by
  rcases handle with - | fs
  · trivial
  rcases path with - | path
  · trivial
  exact returns_bind (returns_mapErr.mpr (fs.safe_lookupPathBytes hf _).returns) fun _ _ =>
    hget fs _

theorem returns_attributes (hf : Tame f) : Returns (attributes f handle path) :=
  returns_atPath hf fun fs inode => returns_mapErr.mpr (fs.returns_listXattrs hf inode)

theorem returns_attributeValue (hf : Tame f) : Returns (attributeValue f handle path name) := by
  rcases name with - | name
  · trivial
  refine returns_atPath hf fun fs inode => ?_
  refine returns_bind (returns_mapErr.mpr (fs.returns_getXattr hf inode _)) fun value _ => ?_
  cases value <;> trivial

theorem returns_linkTarget (hf : Tame f) : Returns (linkTarget f handle path) :=
  returns_atPath hf fun _ _ => returns_ite (fun _ => trivial) fun _ => trivial

theorem returns_roomyTarget (hf : Tame f) (bufsize : Nat) :
    Returns (roomyTarget f handle path bufsize) :=
  returns_bind (returns_linkTarget hf) fun _ _ => returns_ite (fun _ => trivial) fun _ => trivial

theorem roomyTarget_fits {bufsize : Nat} {target : Bytes}
    (h : roomyTarget f handle path bufsize = .ok target) : target.length + 1 ≤ bufsize := by
  obtain ⟨target', -, h⟩ := bind_eq_ok.mp h
  split at h
  · cases h
  · rename_i hroom
    cases h
    omega

theorem returns_fillAttr (fs : Filesystem) (inode : Inode) : Returns (fillAttr fs inode) := by
  unfold fillAttr
  refine returns_bind (safe_okOr _ _).returns fun uid _ => ?_
  exact returns_bind (safe_okOr _ _).returns fun gid _ => trivial

theorem returns_attrAt (hf : Tame f) : Returns (attrAt f handle path) :=
  returns_atPath hf fun fs inode => returns_mapErr.mpr (returns_fillAttr fs inode)

theorem returns_attrOf (hf : Tame f) (n : UInt32) : Returns (attrOf f handle n) := by
  rcases handle with - | fs
  · trivial
  exact returns_bind (returns_mapErr.mpr (fs.safe_readInodeByNumber hf n).returns) fun inode _ =>
    returns_mapErr.mpr (returns_fillAttr fs inode)

/-- A call serves what it fetched, or it gives -1 and leaves the memory alone. -/
theorem served_cases {found : Outcome Nat α} (h : Returns found) (value : α → Int)
    (write : α → σ → σ) (s : σ) :
    (∃ a, found = .ok a ∧ served found value write s = (some ⟨value a, 0⟩, write a s)) ∨
      ∃ e, found = .error (.err e) ∧ served found value write s = (some ⟨-1, e⟩, s) := by
  rcases h.cases with ⟨a, rfl⟩ | ⟨e, rfl⟩
  · exact .inl ⟨a, rfl, rfl⟩
  · exact .inr ⟨e, rfl, rfl⟩

/-! ## The buffer contract -/

/-- A call given a buffer. -/
inductive BufferCall where
  | listxattr (path : Option Bytes)
  | getxattr (path name : Option Bytes)
  | readlink (path : Option Bytes)

/-- A call given a struct. -/
inductive StructCall where
  | stat (path : Option Bytes)
  | statIno (inodeNumber : UInt32)

/-- The call over the memory at its pointer, told that `bufsize` bytes of it are the buffer. -/
def BufferCall.perform (handle : Option Filesystem) (bufsize : Nat) :
    BufferCall → Option Bytes → EntryPoint (Option Bytes) Int
  | .listxattr path => onBuffer bufsize (Capi.listxattr handle path)
  | .getxattr path name => onBuffer bufsize (Capi.getxattr handle path name)
  | .readlink path => Capi.readlink handle path bufsize

def StructCall.perform (handle : Option Filesystem) :
    StructCall → Option Attr → EntryPoint (Option Attr) Int
  | .stat path => Capi.stat handle path
  | .statIno n => Capi.statIno handle n

/-- What a caller of the entry points relies on. -/
structure BufferContract (f : ∀ q, Reply q) (handle : Option Filesystem) : Prop where
  listxattr_value : ∀ path, ∃ r, ∀ bufsize memory, Room bufsize memory →
    (((BufferCall.listxattr path).perform handle bufsize memory).run f).1 = some r
  listxattr_writes : ∀ path bufsize memory, Room bufsize memory →
    (∃ entries fitted, attributes f handle path = .ok entries ∧
      LongestFit entries bufsize fitted ∧
      ((BufferCall.listxattr path).perform handle bufsize memory).run f =
        (some ⟨(nameBlob entries).length, 0⟩, filled (nameBlob fitted) memory)) ∨
    ∃ e, attributes f handle path = .error (.err e) ∧
      ((BufferCall.listxattr path).perform handle bufsize memory).run f = (some ⟨-1, e⟩, memory)
  getxattr_value : ∀ path name, ∃ r, ∀ bufsize memory, Room bufsize memory →
    (((BufferCall.getxattr path name).perform handle bufsize memory).run f).1 = some r
  getxattr_writes : ∀ path name bufsize memory, Room bufsize memory →
    (∃ value, attributeValue f handle path name = .ok value ∧
      ((BufferCall.getxattr path name).perform handle bufsize memory).run f =
        (some ⟨value.length, 0⟩, filled (value.take bufsize) memory)) ∨
    ∃ e, attributeValue f handle path name = .error (.err e) ∧
      ((BufferCall.getxattr path name).perform handle bufsize memory).run f =
        (some ⟨-1, e⟩, memory)
  readlink_writes : ∀ path bufsize m, bufsize ≤ m.length →
    (∃ target, linkTarget f handle path = .ok target ∧
      ((BufferCall.readlink path).perform handle bufsize (some m)).run f =
        if bufsize < target.length + 1 then (some ⟨-1, ERANGE⟩, some m)
        else (some ⟨target.length, 0⟩, filled (target ++ [0]) (some m))) ∨
    ∃ e, linkTarget f handle path = .error (.err e) ∧
      ((BufferCall.readlink path).perform handle bufsize (some m)).run f = (some ⟨-1, e⟩, some m)
  inside : ∀ (call : BufferCall) bufsize m, bufsize ≤ m.length →
    ∃ m', ((call.perform handle bufsize (some m)).run f).2 = some m' ∧ m'.length = m.length ∧
      m'.drop bufsize = m.drop bufsize
  buffer_kept : ∀ (call : BufferCall) bufsize memory e, Room bufsize memory →
    ((call.perform handle bufsize memory).run f).1 = some ⟨-1, e⟩ →
      ((call.perform handle bufsize memory).run f).2 = memory
  struct_kept : ∀ (call : StructCall) attr e, ((call.perform handle attr).run f).1 = some ⟨-1, e⟩ →
    ((call.perform handle attr).run f).2 = attr

/-- A call that pastes into its buffer, over a memory that begins with it. -/
theorem run_onBuffer {call : Option Bytes → EntryPoint (Option Bytes) Int}
    {found : Outcome Nat α} {value : α → Int} {src : α → Nat → Bytes} {bufsize : Nat}
    (hcall : ∀ buf, (call buf).run f =
      served found value (fun a => Option.map fun b => paste b 0 (src a b.length)) buf)
    (hsrc : ∀ a, (src a bufsize).length ≤ bufsize) {memory : Option Bytes}
    (hroom : Room bufsize memory) :
    (onBuffer bufsize call memory).run f =
      served found value (fun a => filled (src a bufsize)) memory := by
  cases memory with
  | none =>
    refine (hcall none).trans ?_
    cases found <;> rfl
  | some m =>
    have hlen : (m.take bufsize).length = bufsize := List.length_take_of_le (hroom m rfl)
    refine (Query.run_bind f _ _).trans ?_
    rw [hcall]
    cases found with
    | error e =>
      show (_, some (m.take bufsize ++ m.drop bufsize)) = _
      rw [List.take_append_drop]
      rfl
    | ok a =>
      show (_, some (paste (m.take bufsize) 0 (src a (m.take bufsize).length) ++ m.drop bufsize)) =
        (_, some (src a bufsize ++ m.drop (src a bufsize).length))
      have hcut : m.drop (src a bufsize).length =
          (m.take bufsize).drop (src a bufsize).length ++ m.drop bufsize := by
        rw [← List.drop_append_of_le_length (by rw [hlen]; exact hsrc a), List.take_append_drop]
      rw [hlen, paste_zero, hcut, List.append_assoc]
      rfl

/-- A write that fits its buffer stays inside it. -/
theorem filled_inside {w m : Bytes} {bufsize : Nat} (hw : w.length ≤ bufsize)
    (hm : bufsize ≤ m.length) :
    (w ++ m.drop w.length).length = m.length ∧
      (w ++ m.drop w.length).drop bufsize = m.drop bufsize := by
  constructor
  · rw [List.length_append, List.length_drop]
    omega
  · rw [List.drop_append, List.drop_eq_nil_of_le hw, List.nil_append, List.drop_drop,
      Nat.add_sub_cancel' hw]

theorem perform_listxattr (hf : Tame f) {bufsize : Nat} {memory : Option Bytes}
    (hroom : Room bufsize memory) :
    ((BufferCall.listxattr path).perform handle bufsize memory).run f =
      served (attributes f handle path) (fun entries => (nameBlob entries).length)
        (fun entries => filled (nameBlob (fitting entries bufsize))) memory :=
  @run_onBuffer f _ _ _ _ (fun entries room => nameBlob (fitting entries room)) _
    (run_listxattr_served hf) (fun entries => (fitting_longest entries bufsize).2.1) _ hroom

theorem perform_getxattr (hf : Tame f) {bufsize : Nat} {memory : Option Bytes}
    (hroom : Room bufsize memory) :
    ((BufferCall.getxattr path name).perform handle bufsize memory).run f =
      served (attributeValue f handle path name) (fun value => value.length)
        (fun value => filled (value.take bufsize)) memory :=
  @run_onBuffer f Bytes _ _ _ (fun value room => value.take room) _ (run_getxattr_served hf)
    (fun value => List.length_take_le bufsize value) _ hroom

/-- A call gives a count and fills part of its buffer, or it gives -1 and leaves it alone. -/
theorem perform_cases (hf : Tame f) (call : BufferCall) {bufsize : Nat} {memory : Option Bytes}
    (hroom : Room bufsize memory) :
    (∃ (n : Nat) (w : Bytes), w.length ≤ bufsize ∧
      (call.perform handle bufsize memory).run f = (some ⟨n, 0⟩, filled w memory)) ∨
    ∃ e, (call.perform handle bufsize memory).run f = (some ⟨-1, e⟩, memory) := by
  cases call with
  | listxattr path =>
    rw [perform_listxattr hf hroom]
    rcases served_cases (returns_attributes hf) _ _ _ with ⟨entries, -, h⟩ | ⟨e, -, h⟩
    · exact .inl ⟨_, _, (fitting_longest entries bufsize).2.1, h⟩
    · exact .inr ⟨e, h⟩
  | getxattr path name =>
    rw [perform_getxattr hf hroom]
    rcases served_cases (returns_attributeValue hf) _ _ _ with ⟨value, -, h⟩ | ⟨e, -, h⟩
    · exact .inl ⟨_, _, List.length_take_le bufsize value, h⟩
    · exact .inr ⟨e, h⟩
  | readlink path =>
    cases memory with
    | none =>
      refine .inr ⟨EINVAL, ?_⟩
      rcases handle with - | fs <;> rcases path with - | path <;> rfl
    | some m =>
      show (∃ n w, _ ∧ (readlink handle path bufsize (some m)).run f = _) ∨
        ∃ e, (readlink handle path bufsize (some m)).run f = _
      rw [run_readlink_served hf (hroom m rfl)]
      rcases served_cases (returns_roomyTarget hf bufsize) _ _ _ with
        ⟨target, htarget, h⟩ | ⟨e, -, h⟩
      · refine .inl ⟨_, _, ?_, h⟩
        rw [List.length_append]
        exact roomyTarget_fits htarget
      · exact .inr ⟨e, h⟩

/-- A call gives 0, or it gives -1 and leaves the struct alone. -/
theorem struct_cases (hf : Tame f) (call : StructCall) (attr : Option Attr) :
    (∃ attr', (call.perform handle attr).run f = (some ⟨0, 0⟩, some attr')) ∨
      ∃ e, (call.perform handle attr).run f = (some ⟨-1, e⟩, attr) := by
  cases attr with
  | none =>
    refine .inr ⟨EINVAL, ?_⟩
    cases call with
    | stat path => rcases handle with - | fs <;> rcases path with - | path <;> rfl
    | statIno n => cases handle <;> rfl
  | some attr =>
    cases call with
    | stat path =>
      rw [StructCall.perform, run_stat_served]
      rcases served_cases (returns_attrAt hf) _ _ _ with ⟨attr', -, h⟩ | ⟨e, -, h⟩
      · exact .inl ⟨attr', h⟩
      · exact .inr ⟨e, h⟩
    | statIno n =>
      rw [StructCall.perform, run_statIno_served]
      rcases served_cases (returns_attrOf hf n) _ _ _ with ⟨attr', -, h⟩ | ⟨e, -, h⟩
      · exact .inl ⟨attr', h⟩
      · exact .inr ⟨e, h⟩

/-- The calls over one handle keep the contract. -/
theorem bufferContract_of_tame (hf : Tame f) (handle : Option Filesystem) :
    BufferContract f handle where
  listxattr_value path := by
    rcases (returns_attributes hf : Returns (attributes f handle path)).cases with
      ⟨entries, h⟩ | ⟨e, h⟩
    · refine ⟨⟨(nameBlob entries).length, 0⟩, fun bufsize memory hroom => ?_⟩
      rw [perform_listxattr hf hroom, h]
      rfl
    · refine ⟨⟨-1, e⟩, fun bufsize memory hroom => ?_⟩
      rw [perform_listxattr hf hroom, h]
      rfl
  listxattr_writes path bufsize memory hroom := by
    rw [perform_listxattr hf hroom]
    refine (served_cases (returns_attributes hf) _ _ _).imp_left ?_
    rintro ⟨entries, hentries, h⟩
    exact ⟨entries, _, hentries, fitting_longest entries bufsize, h⟩
  getxattr_value path name := by
    rcases (returns_attributeValue hf : Returns (attributeValue f handle path name)).cases with
      ⟨value, h⟩ | ⟨e, h⟩
    · refine ⟨⟨value.length, 0⟩, fun bufsize memory hroom => ?_⟩
      rw [perform_getxattr hf hroom, h]
      rfl
    · refine ⟨⟨-1, e⟩, fun bufsize memory hroom => ?_⟩
      rw [perform_getxattr hf hroom, h]
      rfl
  getxattr_writes path name bufsize memory hroom := by
    rw [perform_getxattr hf hroom]
    exact served_cases (returns_attributeValue hf) _ _ _
  readlink_writes path bufsize m hm := by
    show (∃ target, _ ∧ (readlink handle path bufsize (some m)).run f = _) ∨
      ∃ e, _ ∧ (readlink handle path bufsize (some m)).run f = _
    rw [run_readlink_served hf hm]
    unfold roomyTarget
    rcases (returns_linkTarget hf : Returns (linkTarget f handle path)).cases with
      ⟨target, h⟩ | ⟨e, h⟩
    · refine .inl ⟨target, h, ?_⟩
      rw [h, ok_bind]
      by_cases hroom : bufsize < target.length + 1
      · rw [if_pos hroom, if_pos hroom]
        rfl
      · rw [if_neg hroom, if_neg hroom]
        rfl
    · refine .inr ⟨e, h, ?_⟩
      rw [h]
      rfl
  inside call bufsize m hm := by
    have hroom : Room bufsize (some m) := fun m' h => by cases h; exact hm
    rcases perform_cases hf call hroom with ⟨n, w, hw, h⟩ | ⟨e, h⟩
    · rw [h]
      exact ⟨_, rfl, filled_inside hw hm⟩
    · rw [h]
      exact ⟨m, rfl, rfl, rfl⟩
  buffer_kept call bufsize memory e hroom h := by
    rcases perform_cases hf call hroom with ⟨n, w, -, hrun⟩ | ⟨e', hrun⟩
    · rw [hrun] at h
      cases h
    · rw [hrun]
  struct_kept call attr e h := by
    rcases struct_cases hf call attr with ⟨attr', hrun⟩ | ⟨e', hrun⟩
    · rw [hrun] at h
      cases h
    · rw [hrun]

/-- **The buffers of the C ABI.** -/
theorem buffer_contract (codecs : Codecs) (fs : Filesystem) :
    BufferContract (fs.answers codecs) none ∧ BufferContract (fs.answers codecs) (some fs) :=
  ⟨bufferContract_of_tame (fs.tame_answers codecs) none,
    bufferContract_of_tame (fs.tame_answers codecs) (some fs)⟩

end Capi

end Squashfs
