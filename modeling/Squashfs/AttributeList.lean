import Squashfs.Resolution

/-!
# Attributes through the C ABI

About `fs_squashfs_listxattr` and `fs_squashfs_getxattr` (`src/capi.rs:895-1008`). `listxattr` gives
an inode's attribute names, each ended by a NUL, and `getxattr` one value by its name.

**`attributesDecode_iff`**: what they give decodes back to the attributes exactly when the set
stored for the inode has no name with a NUL in it and no name with two values.
-/

namespace Squashfs

open Foundation Filesystem

namespace Capi

variable {f : ∀ q, Reply q} {fs : Filesystem} {inode : Inode}

/-! ## The names -/

/-- The names, each with its NUL. -/
def nameBlob (entries : List XattrEntry) : Bytes :=
  (entries.map fun e => e.name ++ [0]).flatten

@[simp] theorem nameBlob_nil : nameBlob [] = [] := rfl

@[simp] theorem nameBlob_cons (e : XattrEntry) (es : List XattrEntry) :
    nameBlob (e :: es) = e.name ++ 0 :: nameBlob es := by
  simp [nameBlob]

/-- The entries whose names fit whole into `room` bytes. -/
def fitting : List XattrEntry → (room : Nat) → List XattrEntry
  | [], _ => []
  | e :: es, room =>
    if room < e.name.length + 1 then [] else e :: fitting es (room - (e.name.length + 1))

theorem fitting_all {entries : List XattrEntry} {room : Nat}
    (h : (nameBlob entries).length ≤ room) : fitting entries room = entries := by
  induction entries generalizing room with
  | nil => rfl
  | cons e es ih =>
    rw [nameBlob_cons, List.length_append, List.length_cons] at h
    rw [fitting, if_neg (by omega), ih (by omega)]

theorem requiredSize_eq {entries : List XattrEntry} (h : (nameBlob entries).length < wordSize) :
    requiredSize entries = .ok (nameBlob entries).length := by
  have hfold : ∀ acc, acc + (nameBlob entries).length < wordSize →
      entries.foldlM (fun acc (e : XattrEntry) => do add64 acc (← add64 e.name.length 1)) acc =
        (.ok (acc + (nameBlob entries).length) : Outcome Nat Nat) := by
    clear h
    induction entries with
    | nil => exact fun acc _ => rfl
    | cons e es ih =>
      intro acc hacc
      rw [nameBlob_cons, List.length_append, List.length_cons] at hacc ⊢
      rw [List.foldlM_cons, add64_ok (by omega), ok_bind, add64_ok (by omega), ok_bind,
        ih _ (by omega)]
      congr 1
      omega
  unfold requiredSize
  rw [hfold 0 (by omega), Nat.zero_add]

/-- **The loop writes the names that fit** and leaves the rest of the buffer alone. -/
theorem writeNames_eq {entries : List XattrEntry} {out : Bytes} {pos : Nat}
    (hpos : pos ≤ out.length)
    (h : pos + (nameBlob entries).length < wordSize) :
    writeNames entries out pos =
      .ok (paste out pos (nameBlob (fitting entries (out.length - pos)))) := by
  induction entries generalizing out pos with
  | nil =>
    rw [fitting, nameBlob_nil, paste_nil]
    rfl
  | cons e es ih =>
    rw [nameBlob_cons, List.length_append, List.length_cons] at h
    unfold writeNames fitting
    rw [add64_ok (by omega), ok_bind, add64_ok (by omega), ok_bind]
    by_cases hfit : out.length < pos + (e.name.length + 1)
    · rw [if_pos hfit, if_pos (by omega), nameBlob_nil, paste_nil]
      rfl
    · have hlen : (paste out pos e.name).length = out.length := paste_length (by omega)
      have hlen' : (paste out pos (e.name ++ [0])).length = out.length :=
        paste_length (by rw [List.length_append, List.length_singleton]; omega)
      have hend : pos + e.name.length + [(0 : UInt8)].length = pos + (e.name.length + 1) := rfl
      rw [if_neg hfit, if_neg (by omega), copyInto_ok (by omega), ok_bind, add64_ok (by omega),
        ok_bind]
      show (store (paste out pos e.name) _ 0 >>= _) = _
      rw [store_ok (by omega), ok_bind, ← paste_singleton (by omega), paste_paste (by omega),
        ih (by omega) (by omega), hlen', nameBlob_cons]
      have hnext : pos + (e.name ++ [0]).length = pos + (e.name.length + 1) := by
        rw [List.length_append, List.length_singleton]
      rw [← hnext, paste_paste (by omega), List.append_assoc, List.singleton_append, hnext,
        Nat.sub_sub]

/-! ## What the calls give -/

/-- **`listxattr` gives the names' whole size**, and the names that fit. -/
theorem run_listxattr {path : Bytes} {entries : List XattrEntry}
    (hpath : Asking.exec f (fs.lookupPathBytes (cstrToBytes path)) = .ok inode)
    (hentries : Asking.exec f (fs.listXattrs inode) = .ok entries)
    (hsize : (nameBlob entries).length < 2 ^ 63) (buf : Option Bytes) :
    (listxattr (some fs) (some path) buf).run f =
      (some ⟨(nameBlob entries).length, 0⟩,
        buf.map fun b => paste b 0 (nameBlob (fitting entries b.length))) := by
  have hrequired : requiredSize entries = .ok (nameBlob entries).length :=
    requiredSize_eq (by unfold wordSize; omega)
  have hvalue : asI64 (nameBlob entries).length = (nameBlob entries).length :=
    Int64.toInt_ofNat_of_lt hsize
  unfold listxattr listxattrBody
  rw [run_ffiGuard]
  dsimp only
  rw [Stateful.exec_bind, exec_calling, hpath, mapErr_ok]
  dsimp only
  rw [Stateful.exec_bind, exec_calling, hentries, mapErr_ok]
  dsimp only
  rw [Stateful.exec_lift_bind hrequired, Stateful.exec_get_bind]
  rw [← hvalue]
  cases buf with
  | none => rfl
  | some b =>
    dsimp only [Option.map_some]
    by_cases hempty : b.isEmpty = true
    · obtain rfl : b = [] := List.isEmpty_iff.mp hempty
      cases entries with
      | nil => rfl
      | cons e es => rfl
    · rw [if_neg hempty, Stateful.exec_lift_bind (writeNames_eq (Nat.zero_le _)
        (by unfold wordSize; omega))]
      rfl

/-- **`getxattr` gives the value's whole size**, and as much of it as fits. -/
theorem run_getxattr {path name value : Bytes}
    (hpath : Asking.exec f (fs.lookupPathBytes (cstrToBytes path)) = .ok inode)
    (hvalue : Asking.exec f (fs.getXattr inode (cstrToBytes name)) = .ok (some value))
    (hsize : value.length < 2 ^ 63) (buf : Option Bytes) :
    (getxattr (some fs) (some path) (some name) buf).run f =
      (some ⟨value.length, 0⟩, buf.map fun b => paste b 0 (value.take b.length)) := by
  have hlen : asI64 value.length = value.length := Int64.toInt_ofNat_of_lt hsize
  unfold getxattr getxattrBody
  rw [run_ffiGuard]
  dsimp only
  rw [Stateful.exec_bind, exec_calling, hpath, mapErr_ok]
  dsimp only
  rw [Stateful.exec_bind, exec_calling, hvalue, mapErr_ok]
  dsimp only
  rw [Stateful.exec_get_bind, ← hlen]
  cases buf with
  | none => rfl
  | some b =>
    dsimp only [Option.map_some]
    by_cases hempty : b.isEmpty = true
    · obtain rfl : b = [] := List.isEmpty_iff.mp hempty
      rfl
    · have hsrc : (value.drop 0).take (min value.length b.length - 0) = value.take b.length := by
        rw [List.drop_zero, Nat.sub_zero, Nat.min_comm, ← List.take_eq_take_min]
      rw [if_neg hempty, Stateful.exec_lift_bind (slice_ok (Nat.zero_le _) (Nat.min_le_left _ _)),
        hsrc, Stateful.exec_lift_bind (copyInto_ok
          (by rw [Nat.zero_add, List.length_take]; exact Nat.min_le_left _ _))]
      rfl

/-! ## Splitting the names -/

/-- A buffer of NUL-ended strings, split at its NULs. -/
def splitNul (out : Bytes) : List Bytes := (out.splitOn 0).dropLast

theorem splitNul_nameBlob {entries : List XattrEntry} (h : ∀ e ∈ entries, (0 : UInt8) ∉ e.name) :
    splitNul (nameBlob entries) = entries.map (·.name) := by
  have hsplit : (nameBlob entries).splitOn 0 = entries.map (·.name) ++ [[]] := by
    induction entries with
    | nil => rfl
    | cons e es ih =>
      rw [nameBlob_cons, List.splitOn_append_cons_self,
        List.splitOn_eq_singleton (h e List.mem_cons_self),
        ih fun e' he' => h e' (List.mem_cons_of_mem e he')]
      rfl
  rw [splitNul, hsplit, List.dropLast_concat]

theorem notMem_of_mem_splitOn {b : UInt8} {l part : Bytes} (h : part ∈ l.splitOn b) : b ∉ part := by
  by_cases hb : b ∈ l
  · obtain ⟨s, t, rfl⟩ := List.append_of_mem hb
    rw [List.splitOn_append_cons_self] at h
    rcases List.mem_append.mp h with h | h
    · exact notMem_of_mem_splitOn h
    · exact notMem_of_mem_splitOn h
  · rw [List.splitOn_eq_singleton hb, List.mem_singleton] at h
    rwa [h]
termination_by l.length
decreasing_by all_goals subst_vars; simp only [List.length_append, List.length_cons]; omega

/-- Names that come back from a split hold no NUL. -/
theorem no_nul_of_splitNul {entries : List XattrEntry} {out : Bytes}
    (h : splitNul out = entries.map (·.name)) : ∀ e ∈ entries, (0 : UInt8) ∉ e.name := by
  intro e he
  have hmem : e.name ∈ splitNul out := h ▸ List.mem_map_of_mem he
  exact notMem_of_mem_splitOn (List.mem_of_mem_dropLast hmem)

/-! ## Decoding back -/

/-- The listing of a path decodes back to its attributes: where it succeeds, a buffer of the size
it gives is filled with the names, and each name gets the value paired with it. -/
def AttributesDecode (f : ∀ q, Reply q) (fs : Filesystem) (path : Bytes) : Prop :=
  ∀ n errno, ((listxattr (some fs) (some path) none).run f).1 = some ⟨n, errno⟩ → 0 ≤ n →
    ∃ inode entries, Asking.exec f (fs.lookupPathBytes (cstrToBytes path)) = .ok inode ∧
      Asking.exec f (fs.listXattrs inode) = .ok entries ∧
      (∀ buf : Bytes, (buf.length : Int) = n →
        ∃ out, (listxattr (some fs) (some path) (some buf)).run f = (some ⟨n, 0⟩, some out) ∧
          splitNul out = entries.map (·.name)) ∧
      ∀ e ∈ entries, ∀ rest buf : Bytes, buf.length = e.value.length →
        (getxattr (some fs) (some path) (some (e.name ++ 0 :: rest)) (some buf)).run f =
          (some ⟨e.value.length, 0⟩, some e.value)

/-- The set stored for the inode of a path has no name with a NUL in it, and no name with two
values. -/
def DistinctNames (f : ∀ q, Reply q) (fs : Filesystem) (path : Bytes) : Prop :=
  ∀ inode table entries, Asking.exec f (fs.lookupPathBytes (cstrToBytes path)) = .ok inode →
    fs.xattrIds = some table → inode.hasXattrs = true →
    Xattr.Spelled (Xattr.StreamAtRef f table) table inode.xattrIndex entries →
    (∀ e ∈ entries, (0 : UInt8) ∉ e.name) ∧
      ∀ e ∈ entries, ∀ e' ∈ entries, e.name = e'.name → e.value = e'.value

/-- What an inode's attributes are: none, or those its set spells. -/
theorem listXattrs_eq_ok (hf : Tame f) {entries : List XattrEntry} :
    Asking.exec f (fs.listXattrs inode) = .ok entries ↔
      ((fs.xattrIds = none ∨ inode.hasXattrs = false) ∧ entries = []) ∨
        ∃ table, fs.xattrIds = some table ∧ inode.hasXattrs = true ∧
          Xattr.Spelled (Xattr.StreamAtRef f table) table inode.xattrIndex entries := by
  unfold listXattrs
  cases fs.xattrIds with
  | none =>
    constructor
    · intro h
      cases h
      exact .inl ⟨.inl rfl, rfl⟩
    · rintro (⟨-, rfl⟩ | ⟨table, h, -⟩)
      · rfl
      · cases h
  | some table =>
    dsimp only
    rw [Asking.exec_ite]
    by_cases hx : inode.hasXattrs = true
    · rw [if_neg (not_not_intro hx), Xattr.exec_readSet hf]
      constructor
      · exact fun h => .inr ⟨table, rfl, hx, h⟩
      · rintro (⟨h | h, -⟩ | ⟨table', h, -, hset⟩)
        · cases h
        · exact absurd hx (by rw [h]; exact Bool.false_ne_true)
        · cases h
          exact hset
    · rw [if_pos hx]
      constructor
      · intro h
        cases h
        exact .inl ⟨.inr (by simpa using hx), rfl⟩
      · rintro (⟨-, rfl⟩ | ⟨-, -, h, -⟩)
        · rfl
        · exact absurd h hx

/-- The names of a stored set, and each value, are small. -/
theorem sizes_of_listXattrs (hf : Tame f) {entries : List XattrEntry}
    (h : Asking.exec f (fs.listXattrs inode) = .ok entries) :
    (nameBlob entries).length < 2 ^ 63 ∧ ∀ e ∈ entries, e.value.length < 2 ^ 63 := by
  have hsmall : Xattr.totalFootprint entries < 2 ^ 32 := by
    rcases (listXattrs_eq_ok hf).mp h with ⟨-, rfl⟩ | ⟨_, -, -, id, -, -, -, hsize, -⟩
    · decide
    · rw [hsize]
      exact id.size.toNat_lt
  have hle : (nameBlob entries).length ≤ Xattr.totalFootprint entries ∧
      ∀ e ∈ entries, e.value.length ≤ Xattr.totalFootprint entries := by
    clear h hsmall
    induction entries with
    | nil => exact ⟨Nat.le_refl _, fun e he => absurd he List.not_mem_nil⟩
    | cons e es ih =>
      rw [nameBlob_cons, List.length_append, List.length_cons, Xattr.totalFootprint_cons,
        Xattr.footprint]
      refine ⟨by omega, fun e' he' => ?_⟩
      rcases List.mem_cons.mp he' with rfl | he'
      · omega
      · have := ih.2 e' he'
        omega
  exact ⟨by omega, fun e he => by have := hle.2 e he; omega⟩

/-- A value is the first of its name. -/
theorem getXattr_eq {entries : List XattrEntry}
    (h : Asking.exec f (fs.listXattrs inode) = .ok entries) (name : Bytes) :
    Asking.exec f (fs.getXattr inode name) = .ok ((entries.find? (·.name == name)).map (·.value)) := by
  unfold getXattr
  rw [Asking.exec_bind, h, ok_bind]
  rfl

/-- A path whose listing succeeds resolves, and its attributes can be listed. -/
theorem listed_of_listxattr {path : Bytes} {n : Int} {errno : Nat}
    (h : ((listxattr (some fs) (some path) none).run f).1 = some ⟨n, errno⟩) (hn : 0 ≤ n) :
    ∃ inode entries, Asking.exec f (fs.lookupPathBytes (cstrToBytes path)) = .ok inode ∧
      Asking.exec f (fs.listXattrs inode) = .ok entries := by
  unfold listxattr listxattrBody at h
  rw [run_ffiGuard] at h
  dsimp only at h
  rw [Stateful.exec_bind, exec_calling] at h
  rcases hpath : Asking.exec f (fs.lookupPathBytes (cstrToBytes path)) with (e | - | -) | inode
  · rw [hpath] at h
    cases h
    omega
  · rw [hpath] at h
    cases h
    omega
  · rw [hpath] at h
    cases h
  · rw [hpath, mapErr_ok] at h
    dsimp only at h
    rw [Stateful.exec_bind, exec_calling] at h
    rcases hentries : Asking.exec f (fs.listXattrs inode) with (e | - | -) | entries
    · rw [hentries] at h
      cases h
      omega
    · rw [hentries] at h
      cases h
      omega
    · rw [hentries] at h
      cases h
    · exact ⟨inode, entries, rfl, hentries⟩

/-- A listed name is found. -/
theorem find_name {entries : List XattrEntry} {e : XattrEntry} (he : e ∈ entries) :
    ∃ first, entries.find? (·.name == e.name) = some first := by
  refine Option.isSome_iff_exists.mp (List.find?_isSome.mpr ⟨e, he, ?_⟩)
  exact beq_self_eq_true e.name

/-- Getting a name that a C string can carry gives the value of the first that bears it. -/
theorem run_getxattr_name (hf : Tame f) {path name : Bytes} {entries : List XattrEntry}
    {first : XattrEntry} (hpath : Asking.exec f (fs.lookupPathBytes (cstrToBytes path)) = .ok inode)
    (hentries : Asking.exec f (fs.listXattrs inode) = .ok entries)
    (hfirst : entries.find? (·.name == name) = some first) (hnul : (0 : UInt8) ∉ name)
    (rest buf : Bytes) :
    (getxattr (some fs) (some path) (some (name ++ 0 :: rest)) (some buf)).run f =
      (some ⟨first.value.length, 0⟩, some (paste buf 0 (first.value.take buf.length))) := by
  refine run_getxattr hpath ?_
    ((sizes_of_listXattrs hf hentries).2 first (List.mem_of_find?_eq_some hfirst)) (some buf)
  rw [cstrToBytes_append hnul, getXattr_eq hentries, hfirst]
  rfl

/-- **The listing decodes back to the attributes exactly** when the stored names do not hold a NUL
and no name has two values. -/
theorem attributesDecode_iff (codecs : Codecs) (fs : Filesystem) (path : Bytes) :
    AttributesDecode (fs.answers codecs) fs path ↔ DistinctNames (fs.answers codecs) fs path := by
  have hf := fs.tame_answers codecs
  constructor
  · intro h inode table entries hpath htable hx hset
    have hentries := (listXattrs_eq_ok hf).mpr (.inr ⟨table, htable, hx, hset⟩)
    obtain ⟨hsize, hvalues⟩ := sizes_of_listXattrs hf hentries
    have hrun := fun buf => run_listxattr hpath hentries hsize buf
    obtain ⟨inode', entries', hpath', hentries', hnames, hget⟩ :=
      h _ 0 (congrArg Prod.fst (hrun none)) (Int.natCast_nonneg _)
    rw [hpath] at hpath'
    cases hpath'
    rw [hentries] at hentries'
    cases hentries'
    have hnul : ∀ e ∈ entries, (0 : UInt8) ∉ e.name := by
      obtain ⟨out, -, hsplit⟩ := hnames (List.replicate (nameBlob entries).length 0)
        (congrArg _ List.length_replicate)
      exact no_nul_of_splitNul hsplit
    have hfirst : ∀ e ∈ entries, ∀ first, entries.find? (·.name == e.name) = some first →
        e.value = first.value := by
      intro e he first hfirst
      have hrun := hget e he [] (List.replicate e.value.length 0) List.length_replicate
      rw [run_getxattr_name hf hpath hentries hfirst (hnul e he)] at hrun
      obtain ⟨hlen, hvalue⟩ := Prod.mk.inj hrun
      have hlen : first.value.length = e.value.length := by
        have := congrArg Report.value (Option.some.inj hlen)
        exact Int.ofNat_inj.mp this
      rw [List.length_replicate, ← hlen, List.take_length,
        paste_all (by rw [List.length_replicate])] at hvalue
      exact (Option.some.inj hvalue).symm
    refine ⟨hnul, fun e he e' he' hsame => ?_⟩
    obtain ⟨first, hfind⟩ := find_name he
    rw [hfirst e he first hfind, hfirst e' he' first (hsame ▸ hfind)]
  · intro h n errno hlist hn
    obtain ⟨inode, entries, hpath, hentries⟩ := listed_of_listxattr hlist hn
    obtain ⟨hsize, hvalues⟩ := sizes_of_listXattrs hf hentries
    have hrun := fun buf => run_listxattr hpath hentries hsize buf
    have hgood : (∀ e ∈ entries, (0 : UInt8) ∉ e.name) ∧
        ∀ e ∈ entries, ∀ e' ∈ entries, e.name = e'.name → e.value = e'.value := by
      rcases (listXattrs_eq_ok hf).mp hentries with ⟨-, rfl⟩ | ⟨table, htable, hx, hset⟩
      · exact ⟨fun e he => absurd he List.not_mem_nil, fun e he => absurd he List.not_mem_nil⟩
      · exact h inode table entries hpath htable hx hset
    rw [hrun none] at hlist
    cases hlist
    refine ⟨inode, entries, hpath, hentries, fun buf hbuf => ?_, fun e he rest buf hbuf => ?_⟩
    · have hlen : (nameBlob entries).length = buf.length := (Int.ofNat_inj.mp hbuf).symm
      refine ⟨nameBlob entries, ?_, splitNul_nameBlob hgood.1⟩
      rw [hrun (some buf), Option.map_some, fitting_all (Nat.le_of_eq hlen), paste_all hlen]
    · obtain ⟨first, hfind⟩ := find_name he
      have hsame : first.name = e.name := by simpa using List.find?_some hfind
      have hvalue := hgood.2 first (List.mem_of_find?_eq_some hfind) e he hsame
      rw [run_getxattr_name hf hpath hentries hfind (hgood.1 e he), hvalue, hbuf, List.take_length,
        paste_all hbuf.symm]

/-- An image of its root alone, with one attribute whose name holds a NUL. -/
def nulImage : PlainImage where
  rootInodeRef := 0
  inodes := InodeRecord.encode ⟨0x1ED, 0, 0, 0, 1⟩ (.extDir 2 3 0 1 0 0 0)
  listings := [0]
  ids := [0]
  pairs := Xattr.nameWord 0 [0x61, 0, 0x62] ++ Xattr.sized [0x78]
  sets := [⟨0, 1, 10⟩]

theorem nulImage_lt : nulImage.bytes.length < wordSize := by decide +kernel

/-- The image, opened. -/
def nulFilesystem : Filesystem where
  dev := Device.ofBytes nulImage.bytes nulImage_lt
  sb := nulImage.superblock
  comp := .gzip
  idTable := [0]
  fragments := []
  xattrIds := some ⟨155, [⟨0, 1, 10⟩]⟩
  exports := none
  dirTableEnd := 141

def nulRoot : Inode := InodeRecord.toInode ⟨0x1ED, 0, 0, 0, 1⟩ (.extDir 2 3 0 1 0 0 0)

set_option maxRecDepth 10000 in
/-- One attribute is listed as two. -/
theorem nul_name_listed_twice :
    openImage .through .none (Device.ofBytes nulImage.bytes nulImage_lt) = .ok nulFilesystem ∧
      ((listxattr (some nulFilesystem) (some [0x2F, 0]) (some (List.replicate 9 7))).run
        (nulFilesystem.answers .none)).2.map splitNul =
          some [[0x75, 0x73, 0x65, 0x72, 0x2E, 0x61], [0x62]] ∧
      ¬ AttributesDecode (nulFilesystem.answers .none) nulFilesystem [0x2F, 0] := by
  have hlist : ((listxattr (some nulFilesystem) (some [0x2F, 0]) none).run
      (nulFilesystem.answers .none)).1 = some ⟨9, 0⟩ := by decide +kernel
  have hout : ((listxattr (some nulFilesystem) (some [0x2F, 0]) (some (List.replicate 9 7))).run
      (nulFilesystem.answers .none)).2.map splitNul =
        some [[0x75, 0x73, 0x65, 0x72, 0x2E, 0x61], [0x62]] := by decide +kernel
  refine ⟨rfl, hout, fun h => ?_⟩
  have hpath : Asking.exec (nulFilesystem.answers .none)
      (nulFilesystem.lookupPathBytes (cstrToBytes [0x2F, 0])) = .ok nulRoot := by decide +kernel
  have hattrs : Asking.exec (nulFilesystem.answers .none) (nulFilesystem.listXattrs nulRoot) =
      .ok [⟨[0x75, 0x73, 0x65, 0x72, 0x2E, 0x61, 0, 0x62], [0x78]⟩] := by decide +kernel
  obtain ⟨inode, entries, hpath', hentries, hnames, -⟩ := h 9 0 hlist (by decide)
  cases hpath.symm.trans hpath'
  cases hattrs.symm.trans hentries
  obtain ⟨out, hrun, hsplit⟩ := hnames (List.replicate 9 7) rfl
  rw [hrun, Option.map_some, hsplit] at hout
  cases hout

end Capi

end Squashfs
