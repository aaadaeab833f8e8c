import Squashfs.File

/-!
# Directories and paths

About `read_dir`, `lookup` and `lookup_path_bytes` (`src/fs.rs:435-535`). A path resolves by looking
its components up one after the other, and only the components count: **`components_append`** says
that a `/` between two paths joins their components, so leading, trailing and repeated slashes are
nothing, and **`exec_lookupPathBytes_append`** that the joined path resolves to what its second half
resolves to from where its first half leads.

**`safe_readDir`**: listing a directory returns, and gives listed names only. Every inode a path
reaches has its geometry in order (`safe_lookupPathBytes`).
-/

namespace Squashfs

open Foundation

namespace Filesystem

variable {f : ∀ q, Reply q} {fs : Filesystem} {inode : Inode}

/-! ## Inodes -/

theorem safe_readInode (hf : Tame f) (fs : Filesystem) (inodeRef : UInt64) :
    Safe (Inode.Geometry fs.sb) (Asking.exec f (fs.readInode inodeRef)) :=
  (Inode.returns_read hf fs.sb inodeRef).safe fun _ h => Inode.geometry_of_read hf h

theorem safe_readInodeByNumber (hf : Tame f) (fs : Filesystem) (inodeNumber : UInt32) :
    Safe (Inode.Geometry fs.sb) (Asking.exec f (fs.readInodeByNumber inodeNumber)) := by
  unfold readInodeByNumber inodeRefForNumber
  rw [Asking.exec_bind]
  refine safe_bind (P := fun _ => True) ?_ fun inodeRef _ => fs.safe_readInode hf inodeRef
  cases fs.exports with
  | none => trivial
  | some exports => exact (returns_lookup hf exports inodeNumber).safe fun _ _ => trivial

/-! ## Listings -/

theorem safe_readListing (hf : Tame f) (hgeo : inode.Geometry fs.sb) (hdir : inode.isDir = true) :
    Safe (·.length ≤ isizeMax) (Asking.exec f (fs.readListing inode)) := by
  have hlen : inode.dirListingLen ≤ maxRead :=
    Nat.le_trans (Nat.sub_le _ _) (Nat.le_of_lt (hgeo.listing hdir))
  unfold readListing
  rw [Asking.exec_bind]
  refine safe_bind (MetaCursor.safe_new hf _ _) fun cur hcur => ?_
  rw [Stateful.exec_eval]
  refine (MetaCursor.keeps_readExact hf hlen _ (MetaCursor.withLimit_good hcur _ _)).1.mono ?_
  intro buf hbuf
  rw [hbuf]
  exact Nat.le_trans hlen (by decide)

/-- **Listing a directory returns**, and every name it gives is a listed one. -/
theorem safe_readDir (hf : Tame f) (hgeo : inode.Geometry fs.sb) :
    Safe (fun entries => ∀ e ∈ entries, ListedName e.name) (Asking.exec f (fs.readDir inode)) := by
  unfold readDir
  rw [Asking.exec_ite]
  refine safe_ite (fun _ => trivial) fun hdir => ?_
  rw [Asking.exec_ite]
  refine safe_ite (fun _ e he => absurd he List.not_mem_nil) fun _ => ?_
  rw [Asking.exec_bind]
  exact safe_bind (safe_readListing hf hgeo (Decidable.not_not.mp hdir)) fun buf hbuf =>
    safe_parseListing hbuf

/-! ## Lookups -/

/-- What looking a name up comes to: the inode of the first entry that bears it. -/
theorem exec_lookup (dir : Inode) (name : Bytes) :
    Asking.exec f (fs.lookup dir name) =
      Asking.exec f (fs.readDir dir) >>= fun entries =>
        match entries.find? (·.name == name) with
        | some e => Asking.exec f (fs.readInode e.inodeRef)
        | none => fails .notFound := by
  unfold lookup
  rw [Asking.exec_bind]
  refine bind_congr fun entries => ?_
  cases entries.find? (·.name == name) <;> rfl

theorem safe_lookup (hf : Tame f) (hgeo : inode.Geometry fs.sb) (name : Bytes) :
    Safe (Inode.Geometry fs.sb) (Asking.exec f (fs.lookup inode name)) := by
  rw [exec_lookup]
  refine safe_bind (safe_readDir hf hgeo) fun entries _ => ?_
  split
  · exact fs.safe_readInode hf _
  · trivial

/-- One step of a walk, and the rest of it. -/
theorem exec_walk_cons (node : Inode) (comp : Bytes) (comps : List Bytes) :
    Asking.exec f (fs.walk node (comp :: comps)) =
      if ¬ node.isDir then fails .notADirectory
      else Asking.exec f (fs.lookup node comp) >>= fun next =>
        Asking.exec f (fs.walk next comps) := by
  rw [walk, Asking.exec_ite, Asking.exec_bind]
  rfl

/-- **A walk over two runs of components** goes on from where the first leads. -/
theorem exec_walk_append (node : Inode) (comps comps' : List Bytes) :
    Asking.exec f (fs.walk node (comps ++ comps')) =
      Asking.exec f (fs.walk node comps) >>= fun next => Asking.exec f (fs.walk next comps') := by
  induction comps generalizing node with
  | nil => rfl
  | cons comp comps ih =>
    rw [List.cons_append, exec_walk_cons, exec_walk_cons]
    split
    · rfl
    · rw [bind_assoc]
      exact bind_congr fun next => ih next

theorem safe_walk (hf : Tame f) (hgeo : inode.Geometry fs.sb) (comps : List Bytes) :
    Safe (Inode.Geometry fs.sb) (Asking.exec f (fs.walk inode comps)) := by
  induction comps generalizing inode with
  | nil => exact hgeo
  | cons comp comps ih =>
    rw [exec_walk_cons]
    exact safe_ite (fun _ => trivial) fun _ => safe_bind (safe_lookup hf hgeo comp) fun _ h => ih h

/-! ## Paths -/

/-- **A `/` between two paths joins their components.** -/
theorem components_append (p q : Bytes) :
    components (p ++ 0x2F :: q) = components p ++ components q := by
  unfold components
  rw [List.splitOn_append_cons_self, List.filter_append]

/-- A name without `/` is its own only component. -/
theorem components_name {name : Bytes} (hne : name ≠ []) (hslash : (0x2F : UInt8) ∉ name) :
    components name = [name] := by
  unfold components
  rw [List.splitOn_eq_singleton hslash]
  simpa using hne

@[simp] theorem components_nil : components [] = [] := rfl

theorem exec_lookupPathBytes (p : Bytes) :
    Asking.exec f (fs.lookupPathBytes p) =
      Asking.exec f fs.rootInode >>= fun root => Asking.exec f (fs.walk root (components p)) := by
  unfold lookupPathBytes
  rw [Asking.exec_bind]

/-- **A joined path resolves** to what its second half resolves to from where its first half
leads. -/
theorem exec_lookupPathBytes_append (p q : Bytes) :
    Asking.exec f (fs.lookupPathBytes (p ++ 0x2F :: q)) =
      Asking.exec f (fs.lookupPathBytes p) >>= fun node =>
        Asking.exec f (fs.walk node (components q)) := by
  rw [exec_lookupPathBytes, exec_lookupPathBytes, components_append, bind_assoc]
  exact bind_congr fun root => exec_walk_append root _ _

theorem safe_lookupPathBytes (hf : Tame f) (fs : Filesystem) (p : Bytes) :
    Safe (Inode.Geometry fs.sb) (Asking.exec f (fs.lookupPathBytes p)) := by
  rw [exec_lookupPathBytes]
  exact safe_bind (fs.safe_readInode hf _) fun root hroot => safe_walk hf hroot _

/-! ## Attributes -/

theorem returns_listXattrs (hf : Tame f) (fs : Filesystem) (inode : Inode) :
    Returns (Asking.exec f (fs.listXattrs inode)) := by
  unfold listXattrs
  cases fs.xattrIds with
  | none => trivial
  | some table =>
    dsimp only
    rw [Asking.exec_ite]
    exact returns_ite (fun _ => trivial) fun _ => Xattr.returns_readSet hf table inode.xattrIndex

theorem returns_getXattr (hf : Tame f) (fs : Filesystem) (inode : Inode) (name : Bytes) :
    Returns (Asking.exec f (fs.getXattr inode name)) := by
  unfold getXattr
  rw [Asking.exec_bind]
  exact returns_bind (fs.returns_listXattrs hf inode) fun _ _ => trivial

end Filesystem

end Squashfs
