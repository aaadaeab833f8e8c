import Squashfs.Archive
import Squashfs.Capi

/-!
# An archive presents its tree

About `Filesystem` (`src/fs.rs:223-806`) over an image that stores a tree. An `Archive` is an image
with a sound layout and its lookup tables stored, and a `StoredTree` the tree stored in one.
`Presents` says that a reader's answers are those of a tree: a path leads where its components lead
in the tree, and the inode found there shows the node, by every question the reader answers about an
inode.

**`tree_read_back`**: an archive opens, and the reader then presents the tree that is stored.
**`tree_by_number`**: the number an inode carries, or an entry, leads to the same inode through the
export table.
-/

namespace Squashfs

open Foundation

/-! ## The archive -/

/-- An image with a sound layout, a codec the reader has and its lookup tables stored. -/
structure Archive (codecs : Codecs) where
  dev : Device
  sb : Superblock
  comp : Compressor
  ids : List UInt32
  fragments : List (FragmentEntry × UInt32)
  refs : Option (List UInt64)
  xattrs : Option XattrIdTable
  superblock : Superblock.read dev = .ok sb
  layout : SoundLayout dev sb
  codec : sb.compressor = .ok comp
  supported : comp.isSupported = true
  tables : StoredTables codecs dev sb ids fragments refs xattrs

namespace Archive

variable {codecs : Codecs} (a : Archive codecs)

/-- The export table as the reader keeps it: the offsets of its blocks. -/
def exports : Option ExportTable :=
  match readExportTable a.dev a.sb with
  | .ok exports => exports
  | .error _ => none

/-- The open archive. -/
def fs : Filesystem where
  dev := a.dev
  sb := a.sb
  comp := a.comp
  idTable := a.ids
  fragments := a.fragments.map Prod.fst
  xattrIds := a.xattrs
  exports := a.exports
  dirTableEnd := directoryTableEnd a.dev a.sb

theorem readExportTable_eq : readExportTable a.dev a.sb = .ok a.exports := by
  have htable := a.tables.exportTable
  unfold exports
  cases hrefs : a.refs with
  | none =>
    rw [hrefs] at htable
    rw [readExportTable_absent htable]
  | some refs =>
    rw [hrefs] at htable
    obtain ⟨t, hread, -⟩ := readExportTable_present htable
    rw [hread]

/-- **An archive opens**, whatever transparent cache is under it. -/
theorem openWithCache_eq {caching : Caching} (hcaching : caching.Transparent) (blocks : Nat) :
    openWithCache caching codecs a.dev blocks = .ok a.fs := by
  have hdev : (if blocks = 0 then pure a.dev
      else Superblock.read a.dev >>= fun sb => pure (caching a.dev sb.blockSize.toUInt64 blocks) :
      Res Device) = .ok a.dev := by
    split
    · rfl
    · rw [a.superblock, ok_bind, hcaching.eq_self]
      rfl
  have hvalid := Superblock.validateAgainstDevice_eq_ok.mpr a.layout.validated
  unfold openWithCache
  rw [hdev, ok_bind, a.superblock, ok_bind, hvalid, ok_bind, a.codec, ok_bind,
    if_neg (not_not_intro a.supported), readIdTable_stored a.tables.idCount a.tables.idTable,
    ok_bind, readFragmentTable_stored a.tables.fragmentCount a.tables.fragmentTable, ok_bind,
    Xattr.readIdTable_stored a.tables.xattrTable, ok_bind, a.readExportTable_eq]
  rfl

/-- A number leads to the reference stored for it. -/
theorem inodeRefForNumber_eq {refs : List UInt64} (hrefs : a.refs = some refs) (n : UInt32) :
    Asking.exec (a.fs.answers codecs) (a.fs.inodeRefForNumber n) = storedRef refs n := by
  have htable := a.tables.exportTable
  rw [hrefs] at htable
  obtain ⟨t, hread, hlookup⟩ := readExportTable_present htable
  have hexports : a.fs.exports = some t := by
    have heq := a.readExportTable_eq
    rw [hread] at heq
    exact (Except.ok.inj heq).symm
  unfold Filesystem.inodeRefForNumber
  rw [hexports]
  exact hlookup a.comp n

end Archive

/-! ## The tree in it -/

/-- A tree stored in an archive: every node of it, from the root's on, and the references to its
inodes in the export table, if there is one. -/
structure StoredTree {codecs : Codecs} (a : Archive codecs) where
  root : StoredNode
  below : Forest Bytes StoredNode
  root_ref : a.sb.rootInodeRef = root.inodeRef
  root_stored : a.fs.Stores codecs root below
  stored : below.Every (a.fs.Stores codecs)
  root_numbered : ∀ refs, a.refs = some refs →
    storedRef refs root.node.inodeNumber = .ok root.inodeRef
  numbered : ∀ refs, a.refs = some refs →
    below.Every fun s _ => storedRef refs s.node.inodeNumber = .ok s.inodeRef

/-- The tree without its records. -/
def StoredTree.tree {codecs : Codecs} {a : Archive codecs} (t : StoredTree a) :
    Forest Bytes Node :=
  t.below.map StoredNode.node

namespace Filesystem

/-! ## The tree read -/

/-- An inode shows a node: what a caller is told of the inode is what the node is. -/
structure Shows (codecs : Codecs) (fs : Filesystem) (inode : Inode) (node : Node)
    (below : Forest Bytes Node) : Prop where
  fileType : inode.fileType = node.kind.fileType
  permissions : inode.permissions = node.permissions
  mtime : inode.mtime = node.mtime
  inodeNumber : inode.inodeNumber = node.inodeNumber
  nlink : inode.nlink = node.nlink
  uid : fs.resolveUid inode.uidIdx = .ok node.uid
  gid : fs.resolveGid inode.gidIdx = .ok node.gid
  xattrs : Asking.exec (fs.answers codecs) (fs.listXattrs inode) = .ok node.xattrs
  xattr : ∀ name, Asking.exec (fs.answers codecs) (fs.getXattr inode name) =
    .ok ((node.xattrs.find? (·.name == name)).map (·.value))
  /-- A directory lists its entries, with their numbers and types, and nothing else lists any. -/
  entries : if node.isDir then
      ∃ entries, Asking.exec (fs.answers codecs) (fs.readDir inode) = .ok entries ∧
        entries.map (fun d => (d.name, d.inodeNumber, FileType.fromTypeId d.typeId)) =
          below.entries.map fun e => (e.1, e.2.inodeNumber, e.2.kind.fileType)
    else Asking.exec (fs.answers codecs) (fs.readDir inode) = fails .notADirectory
  /-- Any read of a file gives the window of its contents, and nothing else can be read. -/
  contents : ∀ offset buf,
    Stateful.exec (fs.answers codecs) (fs.readFile inode offset) buf =
      match node.kind with
      | .file contents =>
        let window := (contents.drop offset.toNat).take buf.length
        (.ok window.length, window ++ buf.drop window.length)
      | _ => (fails (.badInode "read_file on non-file"), buf)
  target : readSymlinkTarget inode =
    match node.kind with
    | .symlink target => .ok target
    | _ => fails (.badInode "read_symlink_target on non-symlink")
  size : node.isDir = false → inode.fileSize.toNat = node.kind.size
  rdev : inode.rdev = node.kind.rdev

/-- What a lookup fails with. -/
def missing : Missing → Error
  | .noEntry => .notFound
  | .notOpen => .notADirectory

/-- A reader presents a tree: a path leads where its components lead in the tree. -/
def Presents (codecs : Codecs) (fs : Filesystem) (root : Node) (tree : Forest Bytes Node) : Prop :=
  ∀ path,
    match tree.resolve Node.isDir root (components path) with
    | .ok (node, below) =>
      ∃ inode, Asking.exec (fs.answers codecs) (fs.lookupPathBytes path) = .ok inode ∧
        fs.Shows codecs inode node below
    | .error why =>
      Asking.exec (fs.answers codecs) (fs.lookupPathBytes path) = fails (missing why)

section Shown

variable {codecs : Codecs} {fs : Filesystem} {s : StoredNode} {below : Forest Bytes StoredNode}

/-- The entries of a stored directory, by what they show of the tree. -/
theorem map_of_names {ds : List DirEntry} {es : List (Bytes × StoredNode)}
    (h : List.Forall₂ Names ds es) :
    ds.map (fun d => (d.name, d.inodeNumber, FileType.fromTypeId d.typeId)) =
      es.map fun e => (e.1, e.2.node.inodeNumber, e.2.node.kind.fileType) := by
  induction h with
  | nil => rfl
  | cons hd _ ih =>
    obtain ⟨hname, -, hnumber, htype⟩ := hd
    rw [List.map_cons, List.map_cons, ih, hname, hnumber, htype]

/-- A file's contents are read back, and those of nothing else. -/
theorem Stores.readFile_eq (h : fs.Stores codecs s below) (offset : UInt64) (buf : Bytes) :
    Stateful.exec (fs.answers codecs) (fs.readFile s.inode offset) buf =
      match s.node.kind with
      | .file contents =>
        let window := (contents.drop offset.toNat).take buf.length
        (.ok window.length, window ++ buf.drop window.length)
      | _ => (fails (.badInode "read_file on non-file"), buf) := by
  have htype := h.type
  have hkind := h.kind
  have hregular : s.inode.isRegularFile = (s.node.kind.fileType == .regFile) := by
    rw [Inode.isRegularFile, htype]
  have hrefused : s.inode.isRegularFile = false →
      Stateful.exec (fs.answers codecs) (fs.readFile s.inode offset) buf =
        (fails (.badInode "read_file on non-file"), buf) := by
    intro hfile
    unfold readFile readFileWithOffsets
    rw [hfile, if_pos Bool.false_ne_true]
    rfl
  cases hk : s.node.kind with
  | file contents =>
    rw [hk] at hkind hregular
    exact readFile_stored h.geometry hregular hkind.1 offset buf
  | _ =>
    rw [hk] at hregular
    exact hrefused hregular

/-- The size of a stored node that is no directory. -/
theorem Stores.size_eq (h : fs.Stores codecs s below) (hdir : s.node.isDir = false) :
    s.inode.fileSize.toNat = s.node.kind.size := by
  have htype := h.type
  have hkind := h.kind
  have hle : s.inode.symlinkTarget.length ≤ 65536 := s.record.symlinkTarget_le s.header h.valid
  have hnodir : s.node.kind ≠ .dir := by
    intro hk
    rw [s.node.isDir_iff.mpr hk] at hdir
    cases hdir
  have hsize : s.inode.fileType ≠ .dir → s.inode.fileType ≠ .regFile →
      s.inode.fileSize.toNat = s.inode.symlinkTarget.length := by
    intro h₁ h₂
    have heq : s.inode.fileSize = _ := s.record.fileSize_eq s.header h₁ h₂
    rw [heq]
    exact UInt64.toNat_ofNat_of_lt' (Nat.lt_of_le_of_lt hle (by decide))
  have hnone : s.inode.fileType ≠ .symlink → s.inode.symlinkTarget = [] :=
    s.record.symlinkTarget_nil s.header
  rw [htype] at hsize hnone
  cases hk : s.node.kind with
  | dir => exact absurd hk hnodir
  | file contents =>
    rw [hk] at hkind
    exact hkind.1.size
  | symlink target =>
    rw [hk] at hkind hsize
    rw [hsize (by simp [Kind.fileType]) (by simp [Kind.fileType]), hkind.1]
    rfl
  | _ =>
    rw [hk] at hsize hnone
    rw [hsize (by simp [Kind.fileType]) (by simp [Kind.fileType]),
      hnone (by simp [Kind.fileType])]
    rfl

/-- The device of a stored node. -/
theorem Stores.rdev_eq (h : fs.Stores codecs s below) : s.inode.rdev = s.node.kind.rdev := by
  have htype := h.type
  have hkind := h.kind
  have hzero : s.inode.fileType ≠ .charDev → s.inode.fileType ≠ .blockDev → s.inode.rdev = 0 :=
    s.record.rdev_zero s.header
  rw [htype] at hzero
  cases hk : s.node.kind with
  | charDev rdev =>
    rw [hk] at hkind
    exact hkind.1
  | blockDev rdev =>
    rw [hk] at hkind
    exact hkind.1
  | _ =>
    rw [hk] at hzero
    exact hzero (by simp [Kind.fileType]) (by simp [Kind.fileType])

/-- **A stored node is shown.** -/
theorem Stores.shows (h : fs.Stores codecs s below) :
    fs.Shows codecs s.inode s.node (below.map StoredNode.node) where
  fileType := h.type
  permissions := s.inode_header.1.trans h.permissions
  mtime := s.inode_header.2.2.2.1.trans h.mtime
  inodeNumber := s.inode_header.2.2.2.2.trans h.inodeNumber
  nlink := h.nlink
  uid := by
    unfold resolveUid resolveId
    rw [s.inode_header.2.1, h.uid]
    rfl
  gid := by
    unfold resolveGid resolveId
    rw [s.inode_header.2.2.1, h.gid]
    rfl
  xattrs := h.listXattrs_eq
  xattr name := by
    unfold getXattr
    rw [Asking.exec_bind, h.listXattrs_eq]
    rfl
  entries := by
    by_cases hdir : s.node.isDir = true
    · rw [if_pos hdir]
      obtain ⟨entries, hread, hnames⟩ := h.readDir_eq (s.node.isDir_iff.mp hdir)
      refine ⟨entries, hread, ?_⟩
      rw [map_of_names hnames, Forest.entries_map, List.map_map]
      rfl
    · rw [if_neg hdir]
      unfold readDir
      rw [Asking.exec_ite, h.isDir_eq, if_pos hdir]
      rfl
  contents := h.readFile_eq
  target := by
    have htype := h.type
    have hkind := h.kind
    unfold readSymlinkTarget Inode.isSymlink
    rw [htype]
    cases hk : s.node.kind with
    | symlink target =>
      rw [hk] at hkind
      exact congrArg Except.ok hkind.1
    | _ => rfl
  size := h.size_eq
  rdev := h.rdev_eq

/-! ## Paths through the tree -/

/-- The first entry of a name leads to the first node of it. -/
theorem find_names {ds : List DirEntry} {forest : Forest Bytes StoredNode}
    (h : List.Forall₂ Names ds forest.entries) (name : Bytes) :
    (ds.find? (·.name == name)).map (·.inodeRef) =
      (forest.find name).map fun r => r.1.inodeRef := by
  induction forest generalizing ds with
  | nil =>
    cases h
    rfl
  | cons name' node below beside _ ih =>
    cases h with
    | cons hd hds =>
      rename_i d ds
      obtain ⟨hname, href, -⟩ := hd
      have hname : d.name = name' := hname
      have href : d.inodeRef = node.inodeRef := href
      unfold Forest.find
      rw [List.find?_cons, hname]
      by_cases hhere : name' = name
      · rw [if_pos hhere, hhere, beq_self_eq_true]
        exact congrArg some href
      · rw [if_neg hhere, beq_false_of_ne hhere]
        exact ih hds

/-- Looking a name up in a stored directory leads to its node. -/
theorem Stores.lookup_eq (h : fs.Stores codecs s below) (hbelow : below.Every (fs.Stores codecs))
    (hdir : s.node.isDir = true) (name : Bytes) :
    Asking.exec (fs.answers codecs) (fs.lookup s.inode name) =
      match below.find name with
      | some r => .ok r.1.inode
      | none => fails .notFound := by
  obtain ⟨entries, hread, hnames⟩ := h.readDir_eq (s.node.isDir_iff.mp hdir)
  have hfind := find_names hnames name
  rw [exec_lookup, hread, ok_bind]
  cases hnode : below.find name with
  | none =>
    rw [hnode, Option.map_none, Option.map_eq_none_iff] at hfind
    rw [hfind]
  | some r =>
    rw [hnode, Option.map_some, Option.map_eq_some_iff] at hfind
    obtain ⟨d, hd, href⟩ := hfind
    obtain ⟨hr, -⟩ := hbelow.find hnode
    rw [hd]
    dsimp only
    rw [href]
    exact hr.readInode_eq

/-- **A walk over a stored tree** leads where the names lead. -/
theorem exec_walk_stored (h : fs.Stores codecs s below)
    (hbelow : below.Every (fs.Stores codecs)) (comps : List Bytes) :
    Asking.exec (fs.answers codecs) (fs.walk s.inode comps) =
      match below.resolve (fun s => s.node.isDir) s comps with
      | .ok r => .ok r.1.inode
      | .error why => fails (missing why) := by
  induction comps generalizing s below with
  | nil => rfl
  | cons comp comps ih =>
    rw [exec_walk_cons, h.isDir_eq, Forest.resolve]
    by_cases hdir : s.node.isDir = true
    · rw [if_neg (not_not_intro hdir), if_pos hdir, h.lookup_eq hbelow hdir]
      cases hnode : below.find comp with
      | none => rfl
      | some r =>
        obtain ⟨hr, hbeneath⟩ := hbelow.find hnode
        exact ih hr hbeneath
    · rw [if_pos hdir, if_neg hdir]
      rfl

end Shown

end Filesystem

open Filesystem

/-- No reference is stored for zero, nor past the archive's inodes. -/
theorem Archive.storedRef_past {codecs : Codecs} (a : Archive codecs) {refs : List UInt64}
    (hrefs : a.refs = some refs) {n : UInt32} (hn : n = 0 ∨ a.sb.inodeCount < n) :
    storedRef refs n = fails .notFound := by
  have htable := a.tables.exportTable
  rw [hrefs] at htable
  obtain ⟨-, hcount, -⟩ := htable
  unfold storedRef
  rcases hn with rfl | hover
  · exact if_pos rfl
  · have hlt := UInt32.lt_iff_toNat_lt.mp hover
    have hzero : n ≠ 0 := by
      rintro rfl
      exact absurd hlt (Nat.not_lt_zero _)
    rw [if_neg hzero, List.getElem?_eq_none (by omega)]

/-- **The number of a stored node** leads to its inode. -/
theorem Archive.readInodeByNumber_eq {codecs : Codecs} (a : Archive codecs) {s : StoredNode}
    {below : Forest Bytes StoredNode} (h : a.fs.Stores codecs s below) {refs : List UInt64}
    (hrefs : a.refs = some refs)
    (hnumber : storedRef refs s.node.inodeNumber = .ok s.inodeRef) :
    Asking.exec (a.fs.answers codecs) (a.fs.readInodeByNumber s.node.inodeNumber) =
      .ok s.inode := by
  unfold readInodeByNumber
  rw [Asking.exec_bind, a.inodeRefForNumber_eq hrefs, hnumber, ok_bind]
  exact h.readInode_eq

/-- Without an export table no number leads anywhere. -/
theorem Archive.readInodeByNumber_absent {codecs : Codecs} (a : Archive codecs)
    (hnone : a.refs = none) (n : UInt32) :
    Asking.exec (a.fs.answers codecs) (a.fs.readInodeByNumber n) = fails .notExportable := by
  have htable := a.tables.exportTable
  have hexports := a.readExportTable_eq
  rw [hnone] at htable
  rw [readExportTable_absent htable] at hexports
  have habsent : a.fs.exports = none := (Except.ok.inj hexports).symm
  unfold readInodeByNumber inodeRefForNumber
  rw [habsent]
  rfl

namespace StoredTree

variable {codecs : Codecs} {a : Archive codecs}

theorem rootInode_eq (t : StoredTree a) :
    Asking.exec (a.fs.answers codecs) a.fs.rootInode = .ok t.root.inode := by
  have hread := t.root_stored.readInode_eq
  unfold rootInode
  rw [← t.root_ref] at hread
  exact hread

/-- **A path leads where its components lead in the stored tree.** -/
theorem lookup_eq (t : StoredTree a) (path : Bytes) :
    Asking.exec (a.fs.answers codecs) (a.fs.lookupPathBytes path) =
      match t.below.resolve (fun s => s.node.isDir) t.root (components path) with
      | .ok r => .ok r.1.inode
      | .error why => fails (missing why) := by
  rw [exec_lookupPathBytes, t.rootInode_eq, ok_bind]
  exact exec_walk_stored t.root_stored t.stored _

/-- **What a path leads to** is a stored node of the tree, or the failure of a lookup. -/
theorem lookup_cases (t : StoredTree a) (path : Bytes) :
    (∃ s below, t.tree.resolve Node.isDir t.root.node (components path) =
        .ok (s.node, below.map StoredNode.node) ∧
      Asking.exec (a.fs.answers codecs) (a.fs.lookupPathBytes path) = .ok s.inode ∧
      a.fs.Stores codecs s below ∧ below.Every (a.fs.Stores codecs) ∧
      ∀ refs, a.refs = some refs →
        storedRef refs s.node.inodeNumber = .ok s.inodeRef ∧
        below.Every fun s _ => storedRef refs s.node.inodeNumber = .ok s.inodeRef) ∨
    ∃ why, t.tree.resolve Node.isDir t.root.node (components path) = .error why ∧
      Asking.exec (a.fs.answers codecs) (a.fs.lookupPathBytes path) = fails (missing why) := by
  have hlookup := t.lookup_eq path
  have htree : t.tree.resolve Node.isDir t.root.node (components path) = _ :=
    Forest.resolve_map StoredNode.node (fun _ => rfl) t.root t.below (components path)
  rcases hres : t.below.resolve (fun s => s.node.isDir) t.root (components path) with why | r
  · rw [hres] at hlookup htree
    exact .inr ⟨why, htree, hlookup⟩
  · rw [hres] at hlookup htree
    obtain ⟨hs, hbelow⟩ := Forest.Every.resolve t.root_stored t.stored hres
    exact .inl ⟨r.1, r.2, htree, hlookup, hs, hbelow, fun refs hrefs =>
      Forest.Every.resolve (P := fun s _ => storedRef refs s.node.inodeNumber = .ok s.inodeRef)
        (t.root_numbered refs hrefs) (t.numbered refs hrefs) hres⟩

end StoredTree

/-- **A stored tree is presented** by the archive's reader. -/
theorem StoredTree.presents {codecs : Codecs} {a : Archive codecs} (t : StoredTree a) :
    a.fs.Presents codecs t.root.node t.tree := by
  intro path
  rcases t.lookup_cases path with ⟨s, below, hres, hlookup, hs, -⟩ | ⟨why, hres, hlookup⟩
  · rw [hres]
    exact ⟨_, hlookup, hs.shows⟩
  · rw [hres]
    exact hlookup

/-- **An archive is read back**: it opens, with any transparent cache under it, and the reader then
presents the tree that is stored in it. -/
theorem tree_read_back {codecs : Codecs} (a : Archive codecs) (t : StoredTree a) :
    (∀ caching : Caching, caching.Transparent → ∀ blocks,
        openWithCache caching codecs a.dev blocks = .ok a.fs) ∧
      a.fs.Presents codecs t.root.node t.tree :=
  ⟨fun _ => a.openWithCache_eq, t.presents⟩

/-- **Numbers lead back**: the number of every inode a path leads to, and the number of every entry
of a directory, leads to that inode; a number past the archive's inodes leads nowhere, and without
an export table none does. -/
theorem tree_by_number {codecs : Codecs} (a : Archive codecs) (t : StoredTree a) :
    (a.refs = none → ∀ n,
      Asking.exec (a.fs.answers codecs) (a.fs.readInodeByNumber n) = fails .notExportable) ∧
    (a.refs ≠ none →
      (∀ n, n = 0 ∨ a.sb.inodeCount < n →
        Asking.exec (a.fs.answers codecs) (a.fs.readInodeByNumber n) = fails .notFound) ∧
      ∀ path inode, Asking.exec (a.fs.answers codecs) (a.fs.lookupPathBytes path) = .ok inode →
        Asking.exec (a.fs.answers codecs) (a.fs.readInodeByNumber inode.inodeNumber) = .ok inode ∧
        ∀ entries, Asking.exec (a.fs.answers codecs) (a.fs.readDir inode) = .ok entries →
          ∀ e ∈ entries, ∃ child,
            Asking.exec (a.fs.answers codecs) (a.fs.readInode e.inodeRef) = .ok child ∧
            Asking.exec (a.fs.answers codecs) (a.fs.readInodeByNumber e.inodeNumber) =
              .ok child) := by
  refine ⟨a.readInodeByNumber_absent, fun hsome => ?_⟩
  obtain ⟨refs, hrefs⟩ := Option.ne_none_iff_exists'.mp hsome
  refine ⟨fun n hn => ?_, fun path inode hlookup => ?_⟩
  · unfold readInodeByNumber
    rw [Asking.exec_bind, a.inodeRefForNumber_eq hrefs, a.storedRef_past hrefs hn]
    rfl
  obtain ⟨s, below, -, hinode, hs, hbelow, hnumbers⟩ :=
    (t.lookup_cases path).resolve_right fun ⟨_, _, hnone⟩ => by
      rw [hnone] at hlookup
      cases hlookup
  obtain rfl : s.inode = inode := Except.ok.inj (hinode.symm.trans hlookup)
  obtain ⟨hnumber, hnumbered⟩ := hnumbers refs hrefs
  have hshown : s.inode.inodeNumber = s.node.inodeNumber :=
    s.inode_header.2.2.2.2.trans hs.inodeNumber
  refine ⟨?_, fun entries hread e he => ?_⟩
  · rw [hshown]
    exact a.readInodeByNumber_eq hs hrefs hnumber
  · have hdir : s.node.isDir = true := by
      by_contra hfile
      have hrefused := hs.shows.entries
      rw [if_neg hfile, hread] at hrefused
      cases hrefused
    obtain ⟨ds, hds, hnames⟩ := hs.readDir_eq (s.node.isDir_iff.mp hdir)
    rw [hread] at hds
    cases hds
    obtain ⟨hlen, hget⟩ := List.forall₂_iff_get.mp hnames
    obtain ⟨i, rfl⟩ := List.mem_iff_get.mp he
    have hi : i < below.entries.length := hlen ▸ i.isLt
    have hx := List.get_mem below.entries ⟨i, hi⟩
    obtain ⟨-, href, hentry, -⟩ := hget i i.isLt hi
    generalize below.entries.get ⟨i, hi⟩ = child at hx href hentry
    obtain ⟨beneath, hstored⟩ := hbelow.entry hx
    obtain ⟨-, hnumber⟩ := hnumbered.entry hx
    refine ⟨child.2.inode, ?_, ?_⟩
    · have hchild := hstored.readInode_eq
      rwa [← href] at hchild
    · have hchild := a.readInodeByNumber_eq hstored hrefs hnumber
      rwa [← hentry] at hchild

/-! ## A small archive -/

/-- A table of one block. -/
theorem cutInto_one {size : Nat} {block : Bytes} (hne : block ≠ []) (hle : block.length ≤ size) :
    CutInto size [block] where
  full j b hj _ := absurd hj (by simp)
  filled b hb := by
    rw [List.mem_singleton.mp hb]
    exact ⟨hne, hle⟩

namespace SmallTree

/-- A file of three bytes. -/
def file : StoredNode where
  node := ⟨.file [0x61, 0x62, 0x63], 0x1A4, 7, 7, 5, 2, 1, []⟩
  inodeRef := 32
  header := ⟨0x1A4, 0, 0, 5, 2⟩
  record := .basicFile 96 SQUASHFS_INVALID_FRAG 0 3 [0x1000003]

/-- A link to it. -/
def link : StoredNode where
  node := ⟨.symlink [0x61], 0x1FF, 7, 7, 5, 4, 1, []⟩
  inodeRef := 100
  header := ⟨0x1FF, 0, 0, 5, 4⟩
  record := .basicSymlink 1 [0x61]

/-- The directory of the link. -/
def dir : StoredNode where
  node := ⟨.dir, 0x1ED, 7, 7, 5, 3, 2, []⟩
  inodeRef := 68
  header := ⟨0x1ED, 0, 0, 5, 3⟩
  record := .basicDir 0 2 24 30 1

/-- The root, with the file `a` and the directory `d`. -/
def root : StoredNode where
  node := ⟨.dir, 0x1ED, 7, 7, 5, 1, 3, []⟩
  inodeRef := 0
  header := ⟨0x1ED, 0, 0, 5, 1⟩
  record := .basicDir 0 3 33 0 5

def below : Forest Bytes StoredNode :=
  .cons [0x61] file .nil (.cons [0x64] dir (.cons [0x6C] link .nil .nil) .nil)

theorem listed_a : ListedName [0x61] := by constructor <;> decide

theorem listed_d : ListedName [0x64] := by constructor <;> decide

theorem listed_l : ListedName [0x6C] := by constructor <;> decide

def rootGroup : StoredGroup where
  start := 0
  baseInode := 2
  entries := [⟨32, 0, 2, [0x61], listed_a⟩, ⟨68, 1, 1, [0x64], listed_d⟩]
  nonempty := List.cons_ne_nil _ _
  length_le := by decide

def dirGroup : StoredGroup where
  start := 0
  baseInode := 4
  entries := [⟨100, 0, 3, [0x6C], listed_l⟩]
  nonempty := List.cons_ne_nil _ _
  length_le := by decide

def inodes : Bytes :=
  [root, file, dir, link].flatMap fun s => s.record.encode s.header

def listings : Bytes := rootGroup.encode ++ dirGroup.encode

def refs : List UInt64 := [root, file, dir, link].map (·.inodeRef)

/-- The file's bytes, the inodes, the listings, and the export and id tables. -/
def body : Bytes :=
  [0x61, 0x62, 0x63] ++ storeRaw inodes ++ storeRaw listings ++
    storeRaw (refs.flatMap u64Bytes) ++ u64Bytes 279 ++ storeRaw (u32Bytes 7) ++ u64Bytes 321

def superblock : Superblock :=
  { PlainImage.sample.superblock with
    inodeCount := 4
    idCount := 1
    bytesUsed := 335
    rootInodeRef := 0
    inodeTableStart := 99
    directoryTableStart := 226
    exportTableStart := 313
    idTableStart := 327 }

theorem length_lt : (superblock.encode ++ body).length < wordSize := by decide +kernel

def device : Device := Device.ofBytes (superblock.encode ++ body) length_lt

/-- The block of inodes. -/
def inodeBlock : MetaBlock where
  header := UInt16.ofNat inodes.length ||| UNCOMPRESSED_BIT
  payload := inodes
  contents := inodes
  sized := by decide +kernel
  nonempty := by decide +kernel
  bounded := by decide +kernel

def layout : SoundLayout device superblock where
  size := by decide +kernel
  afterSuperblock := by decide +kernel
  ids := by decide +kernel
  ordered := by decide +kernel
  below := by
    have hall : (superblock.directoryTableStart ::
        superblock.laterTables.filter (· ≠ NO_TABLE)).all (· < superblock.bytesUsed) = true := by
      decide +kernel
    exact fun t ht => of_decide_eq_true (List.all_eq_true.mp hall t ht)
  blocks := [inodeBlock]
  stored := by decide +kernel
  before := []
  root := inodeBlock
  after := []
  root_mem := rfl
  root_ref := by decide +kernel
  recordStart i := [0, 32, 68, 100].getD i 0
  recordLength i := [32, 36, 32, 25].getD i 0
  record_length := by decide +kernel
  record_inside := by decide +kernel
  record_disjoint := by decide +kernel

theorem tables : StoredTables .none device superblock [7] [] (some refs) none where
  idCount := by decide +kernel
  idTable := storedEntries_one 321 (.raw _ (by decide) (by decide) (by decide +kernel)
    (by decide +kernel)) (by decide) (by decide) (by decide +kernel) (by decide +kernel)
  fragmentCount := by decide +kernel
  fragmentTable := fun hne => absurd rfl hne
  exportTable := ⟨by decide, by decide +kernel, fun _ => ⟨[279], [refs.flatMap u64Bytes],
    cutInto_one (by decide) (by decide), List.flatten_singleton,
    .cons ⟨_, .raw _ (by decide) (by decide) (by decide +kernel) (by decide +kernel)⟩ .nil,
    by decide +kernel, by decide +kernel⟩⟩
  xattrTable := rfl

def archive : Archive .none where
  dev := device
  sb := superblock
  comp := .gzip
  ids := [7]
  fragments := []
  refs := some refs
  xattrs := none
  superblock := Superblock.read_encode rfl rfl rfl length_lt rfl
  layout := layout
  codec := rfl
  supported := rfl
  tables := tables

/-- The block of inodes is stored raw. -/
theorem inodes_stored :
    StoredBlock .none device superblock 99 inodes (99 + 2 + inodes.length) :=
  .raw _ (by decide +kernel) (by decide +kernel) (by decide +kernel) (by decide +kernel)

theorem listings_stored :
    StoredBlock .none device superblock 226 listings (226 + 2 + listings.length) :=
  .raw _ (by decide +kernel) (by decide +kernel) (by decide +kernel) (by decide +kernel)

theorem inode_stream {inBlock : Nat} {w : Bytes} (hin : inBlock ≤ inodes.length)
    (hw : (inodes.drop inBlock).take w.length = w) :
    StoredStream .none device superblock 99 inBlock w (99 + 2 + inodes.length) :=
  .one inodes_stored (by decide) (by decide +kernel) hin hw

theorem listing_stream {inBlock : Nat} {w : Bytes} (hin : inBlock ≤ listings.length)
    (hw : (listings.drop inBlock).take w.length = w) :
    StoredStream .none device superblock 226 inBlock w (226 + 2 + listings.length) :=
  .one listings_stored (by decide) (by decide +kernel) hin hw

theorem file_stored : archive.fs.Stores .none file .nil where
  valid := ⟨by decide +kernel, by decide +kernel⟩
  record := ⟨_, inode_stream (by decide +kernel) (by decide +kernel)⟩
  permissions := rfl
  uid := rfl
  gid := rfl
  mtime := rfl
  inodeNumber := rfl
  nlink := rfl
  xattrs := rfl
  type := rfl
  kind := by
    refine ⟨⟨rfl, fun i sizeWord hi => ?_, fun hin => absurd hin (by decide)⟩, rfl⟩
    cases i with
    | zero =>
      cases hi
      exact .inr ⟨by decide, .raw _ rfl rfl (by decide) (by decide) (by decide +kernel)⟩
    | succ i => cases hi

theorem link_stored : archive.fs.Stores .none link .nil where
  valid := Nat.le_of_ble_eq_true rfl
  record := ⟨_, inode_stream (by decide +kernel) (by decide +kernel)⟩
  permissions := rfl
  uid := rfl
  gid := rfl
  mtime := rfl
  inodeNumber := rfl
  nlink := rfl
  xattrs := rfl
  type := rfl
  kind := ⟨rfl, rfl⟩

theorem dir_stored : archive.fs.Stores .none dir (.cons [0x6C] link .nil .nil) where
  valid := trivial
  record := ⟨_, inode_stream (by decide +kernel) (by decide +kernel)⟩
  permissions := rfl
  uid := rfl
  gid := rfl
  mtime := rfl
  inodeNumber := rfl
  nlink := rfl
  xattrs := rfl
  type := rfl
  kind := ⟨[dirGroup], .cons ⟨rfl, rfl, rfl, rfl⟩ .nil, rfl, fun _ => ⟨_, by decide +kernel,
    listing_stream (by decide +kernel) (by decide +kernel)⟩⟩

theorem root_stored : archive.fs.Stores .none root below where
  valid := trivial
  record := ⟨_, inode_stream (by decide +kernel) (by decide +kernel)⟩
  permissions := rfl
  uid := rfl
  gid := rfl
  mtime := rfl
  inodeNumber := rfl
  nlink := rfl
  xattrs := rfl
  type := rfl
  kind := ⟨[rootGroup], .cons ⟨rfl, rfl, rfl, rfl⟩ (.cons ⟨rfl, rfl, rfl, rfl⟩ .nil), rfl,
    fun _ => ⟨_, by decide +kernel, listing_stream (by decide +kernel) (by decide +kernel)⟩⟩

def stored : StoredTree archive where
  root := root
  below := below
  root_ref := rfl
  root_stored := root_stored
  stored := ⟨file_stored, trivial, dir_stored, ⟨link_stored, trivial, trivial⟩, trivial⟩
  root_numbered refs h := by
    cases h
    rfl
  numbered refs h := by
    cases h
    exact ⟨rfl, trivial, rfl, ⟨rfl, trivial, trivial⟩, trivial⟩

end SmallTree

/-- The link in the directory is found, and so is that nothing is below the file. -/
theorem tree_read_back_small :
    openImage .through .none SmallTree.device = .ok SmallTree.archive.fs ∧
      (∃ inode, Asking.exec (SmallTree.archive.fs.answers .none)
          (SmallTree.archive.fs.lookupPathBytes [0x2F, 0x64, 0x2F, 0x6C]) = .ok inode ∧
        readSymlinkTarget inode = .ok [0x61]) ∧
      Asking.exec (SmallTree.archive.fs.answers .none)
        (SmallTree.archive.fs.lookupPathBytes [0x61, 0x2F, 0x62]) = fails .notADirectory := by
  obtain ⟨hopen, hpresents⟩ := tree_read_back SmallTree.archive SmallTree.stored
  obtain ⟨inode, hlookup, hshows⟩ := hpresents [0x2F, 0x64, 0x2F, 0x6C]
  exact ⟨hopen _ Caching.transparent_through DEFAULT_CACHE_BLOCKS,
    ⟨inode, hlookup, hshows.target⟩, hpresents [0x61, 0x2F, 0x62]⟩

theorem tree_by_number_small :
    Asking.exec (SmallTree.archive.fs.answers .none)
      (SmallTree.archive.fs.readInodeByNumber 5) = fails .notFound := by
  obtain ⟨-, hsome⟩ := tree_by_number SmallTree.archive SmallTree.stored
  exact (hsome (Option.some_ne_none _)).1 5 (.inr (by decide))

end Squashfs
