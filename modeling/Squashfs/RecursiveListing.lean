import Squashfs.Foundation.Preorder
import Squashfs.Path

/-!
# Recursive listings

Model of `ls_recursive` and `recursive_entry` (`src/cli/squashfs/fs.rs:626-726`), the walk of
`fs.squashfs ls --recursive`: `lsRecursive` walks the tree below a path within two bounds, with a
stack of directory listings and the set of the directories it entered, by inode number.

**`recursive_listing`**: the walk ends on every image, lists no directory twice and marks every
other occurrence of one, and prints what the recursive traversal of the tree prints, up to the first
child that is past a bound.

Out of scope: the rendering of an entry as text or JSON, and the command line it is parsed from.
-/

namespace Squashfs

open Foundation Filesystem

namespace Cli

/-! ## Entries -/

/-- `Inode::rdev_major`. -/
def rdevMajor (i : Inode) : UInt32 := (i.rdev &&& 0xFFF00) >>> (8 : UInt32)

/-- `Inode::rdev_minor`. -/
def rdevMinor (i : Inode) : UInt32 := (i.rdev &&& 0xFF) ||| ((i.rdev >>> (12 : UInt32)) &&& 0xFFF00)

/-- The fields of one `ls` entry. -/
structure Entry where
  name : Bytes
  type : FileType
  size : UInt64
  mode : UInt16
  mtime : UInt32
  inode : UInt32
  target : Option Bytes
  device : Option (UInt32 × UInt32)
  deriving Repr, DecidableEq

def entry (name : Bytes) (inode : Inode) : Entry where
  name := name
  type := inode.fileType
  size := inode.fileSize
  mode := inode.permissions &&& 0o7777
  mtime := inode.mtime
  inode := inode.inodeNumber
  target := if inode.fileType = .symlink then some inode.symlinkTarget else none
  device :=
    if inode.fileType = .charDev ∨ inode.fileType = .blockDev then
      some (rdevMajor inode, rdevMinor inode)
    else none

/-- The fields of one entry of a recursive listing. -/
structure RecursiveEntry extends Entry where
  path : Bytes
  depth : Nat
  revisited : Bool
  deriving Repr, DecidableEq

def recursiveEntry (path : Bytes) (depth : Nat) (inode : Inode) (revisited : Bool) :
    RecursiveEntry :=
  { entry (((path.splitOn 0x2F).getLast?).getD path) inode with path, depth, revisited }

/-! ## The walk -/

/-- What stops a listing: a bound, by its flag, or an error of the reader about a path. -/
inductive CliError where
  | boundReached (flag : String) (bound : UInt64) (what : Bytes)
  | squashfsError (what : Bytes) (e : Error)
  deriving Repr, DecidableEq

structure ListBounds where
  maxDepth : UInt64
  limit : UInt64
  deriving Repr, DecidableEq

instance finiteUInt32 : Finite UInt32 :=
  Finite.of_injective UInt32.toFin fun _ _ h => UInt32.toFin_inj.mp h

/-- A directory not seen before. -/
theorem new_iff {inode : Inode} {visited : List UInt32} :
    (inode.isDir = true ∧ (inode.isDir && visited.contains inode.inodeNumber) = false) ↔
      inode.isDir = true ∧ inode.inodeNumber ∉ visited := by
  refine and_congr_right fun hdir => ?_
  rw [hdir, Bool.true_and]
  simp

/-- The entries so far survive a failure. -/
abbrev ListM (α : Type) := Stateful Req Reply CliError (List RecursiveEntry) α

/-- A call of the reader whose error is reported about `what`. -/
def about {α : Type} (what : Bytes) (m : Prog α) : Asking Req Reply CliError α :=
  m.mapErr (CliError.squashfsError what)

/-- A directory's entries in the order of their names. -/
def children (fs : Filesystem) (node : Inode) (what : Bytes) :
    Asking Req Reply CliError (List DirEntry) := do
  let children ← about what (fs.readDir node)
  return children.mergeSort fun a b => decide (a.name ≤ b.name)

/-- The path of a child. -/
def childPath (parent name : Bytes) : Bytes :=
  if parent.getLast? = some 0x2F then parent ++ name else parent ++ 0x2F :: name

/-- A directory on the stack: its path, its depth, and the children still to come. -/
structure Frame where
  parent : Bytes
  parentDepth : Nat
  children : List DirEntry

/-- How much there is to do on a stack. -/
def framesLeft (stack : List Frame) : Nat := (stack.map fun fr => fr.children.length + 1).sum

/-- `while let Some((parent, parent_depth, children_iter)) = stack.last_mut()`, the stack's top
first. -/
def lsLoop (fs : Filesystem) (bounds : ListBounds) (visited : List UInt32) :
    List Frame → ListM Unit
  | [] => return ()
  | ⟨_, _, []⟩ :: stack => lsLoop fs bounds visited stack
  | ⟨parent, parentDepth, child :: children_iter⟩ :: stack => do
    let full := childPath parent child.name
    let depth := parentDepth + 1
    let entries ← get
    if bounds.limit.toNat ≤ entries.length then
      throw (.err (.boundReached "--limit" bounds.limit full))
    else if bounds.maxDepth.toNat < depth then
      throw (.err (.boundReached "--max-depth" bounds.maxDepth full))
    else
      let inode ← Stateful.ofAsking (about full (fs.readInode child.inodeRef))
      let revisited := inode.isDir && visited.contains inode.inodeNumber
      set (entries ++ [recursiveEntry full depth inode revisited])
      if _h : inode.isDir = true ∧ revisited = false then
        let next ← Stateful.ofAsking (children fs inode full)
        lsLoop fs bounds (inode.inodeNumber :: visited)
          (⟨full, depth, next⟩ :: ⟨parent, parentDepth, children_iter⟩ :: stack)
      else lsLoop fs bounds visited (⟨parent, parentDepth, children_iter⟩ :: stack)
termination_by stack => (unseen visited, framesLeft stack)
decreasing_by
  · exact .right _ (by simp [framesLeft])
  · exact .left _ _ (unseen_cons_lt (new_iff.mp _h).2)
  · exact .right _ (by simp [framesLeft])

/-- The path as it is printed: its components, each behind a slash. -/
def fullPath (path : Bytes) : Bytes :=
  let full := ((components path).map (0x2F :: ·)).flatten
  if full.isEmpty then [0x2F] else full

/-- `ls_recursive`: the entries are what it prints, also in front of an error. -/
def lsRecursive (fs : Filesystem) (path : Bytes) (bounds : ListBounds) : ListM Unit := do
  let inode ← Stateful.ofAsking (about path (fs.lookupPathBytes path))
  let full := fullPath path
  if ¬ inode.isDir then
    if bounds.limit = 0 then throw (.err (.boundReached "--limit" bounds.limit full))
    else set ((← get) ++ [recursiveEntry full 0 inode false])
  else
    let first ← Stateful.ofAsking (children fs inode full)
    lsLoop fs bounds [inode.inodeNumber] [⟨full, 0, first⟩]

/-! ## The tree as a graph -/

/-- Where a walk meets an inode: its path, its depth, and the reference to it. -/
structure Place where
  full : Bytes
  depth : Nat
  inodeRef : UInt64

/-- The place of an entry of the directory at `parent`. -/
def below (parent : Bytes) (depth : Nat) (child : DirEntry) : Place :=
  ⟨childPath parent child.name, depth + 1, child.inodeRef⟩

/-- The tree of an image: inodes at places, entered by number. -/
def tree (f : ∀ q, Reply q) (fs : Filesystem) : Graph Place Inode UInt32 (Fail CliError) where
  read p := Asking.exec f (about p.full (fs.readInode p.inodeRef))
  opens inode := inode.isDir
  key inode := inode.inodeNumber
  kids p inode := (Asking.exec f (children fs inode p.full)).map (List.map (below p.full p.depth))

/-- What a bound refuses: a child at a path and a depth, as entry number `n`. -/
def ListBounds.refuses (bounds : ListBounds) (n : Nat) (full : Bytes) (depth : Nat) :
    Option (Fail CliError) :=
  if bounds.limit.toNat ≤ n then some (.err (.boundReached "--limit" bounds.limit full))
  else if bounds.maxDepth.toNat < depth then
    some (.err (.boundReached "--max-depth" bounds.maxDepth full))
  else none

def ListBounds.guard (bounds : ListBounds) (n : Nat) (p : Place) : Option (Fail CliError) :=
  bounds.refuses n p.full p.depth

/-- The entry of a visit. -/
def shown (x : Visit Place Inode) : RecursiveEntry :=
  recursiveEntry x.child.full x.child.depth x.node x.revisited

/-- The children still to come of a frame. -/
def Frame.places (fr : Frame) : List Place := fr.children.map (below fr.parent fr.parentDepth)

/-- How a walk ends. -/
def ending : Option (Fail CliError) → Outcome CliError Unit
  | none => .ok ()
  | some e => .error e

variable {f : ∀ q, Reply q} {fs : Filesystem}

theorem kids_eq_error {p : Place} {node : Inode} {e : Fail CliError} :
    (tree f fs).kids p node = .error e ↔
      Asking.exec f (children fs node p.full) = .error e := by
  show Except.map _ (Asking.exec f (children fs node p.full)) = _ ↔ _
  cases Asking.exec f (children fs node p.full) <;> simp [Except.map]

theorem kids_eq_ok {p : Place} {node : Inode} {l : List Place} :
    (tree f fs).kids p node = .ok l ↔
      ∃ next, Asking.exec f (children fs node p.full) = .ok next ∧
        next.map (below p.full p.depth) = l := by
  show Except.map _ (Asking.exec f (children fs node p.full)) = _ ↔ _
  cases Asking.exec f (children fs node p.full) <;> simp [Except.map]

/-- **The loop is the walk of the tree.** -/
theorem exec_lsLoop (bounds : ListBounds) (visited : List UInt32) (out : List (Visit Place Inode))
    (stack : List Frame) :
    Stateful.exec f (lsLoop fs bounds visited stack) (out.map shown) =
      (ending ((tree f fs).walk bounds.guard visited out (stack.map Frame.places)).2,
        ((tree f fs).walk bounds.guard visited out (stack.map Frame.places)).1.map shown) := by
  match stack with
  | [] =>
    rw [lsLoop, List.map_nil, Graph.walk]
    rfl
  | ⟨parent, depth, []⟩ :: stack =>
    rw [lsLoop, exec_lsLoop bounds visited out stack, List.map_cons]
    have hempty : Frame.places ⟨parent, depth, []⟩ = [] := rfl
    rw [hempty, Graph.walk]
  | ⟨parent, depth, child :: rest⟩ :: stack =>
    have hplaces : Frame.places ⟨parent, depth, child :: rest⟩ =
        below parent depth child :: Frame.places ⟨parent, depth, rest⟩ := rfl
    rw [lsLoop, Stateful.exec_get_bind, List.map_cons, hplaces]
    dsimp only
    rw [List.length_map]
    by_cases hlimit : bounds.limit.toNat ≤ out.length
    · rw [if_pos hlimit, Graph.walk_refused (if_pos hlimit)]
      rfl
    by_cases hdepth : bounds.maxDepth.toNat < depth + 1
    · have hrefused : bounds.guard out.length (below parent depth child) =
          some (.err (.boundReached "--max-depth" bounds.maxDepth (childPath parent child.name))) :=
        (if_neg hlimit).trans (if_pos hdepth)
      rw [if_neg hlimit, if_pos hdepth, Graph.walk_refused hrefused]
      rfl
    have hguard : bounds.guard out.length (below parent depth child) = none :=
      (if_neg hlimit).trans (if_neg hdepth)
    rw [if_neg hlimit, if_neg hdepth]
    have hshown : ∀ inode revisited, out.map shown ++
        [recursiveEntry (childPath parent child.name) (depth + 1) inode revisited] =
          (out ++ [Visit.mk (below parent depth child) inode revisited]).map shown := by
      intro inode revisited
      rw [List.map_append]
      rfl
    rcases hread : Asking.exec f (about (childPath parent child.name)
      (fs.readInode child.inodeRef)) with e | inode
    · have hunread : (tree f fs).read (below parent depth child) = .error e := hread
      rw [Stateful.exec_bind, Stateful.exec_ofAsking, hread, Graph.walk_unread hguard hunread]
      rfl
    have hinode : (tree f fs).read (below parent depth child) = .ok inode := hread
    rw [Stateful.exec_ofAsking_bind hread, Stateful.exec_set_bind, hshown]
    by_cases hnew : inode.isDir = true ∧ (inode.isDir && visited.contains inode.inodeNumber) = false
    · have hopens : (tree f fs).opens inode = true ∧ (tree f fs).key inode ∉ visited :=
        new_iff.mp hnew
      rw [dif_pos hnew, hnew.2]
      rcases hkids : Asking.exec f (children fs inode (childPath parent child.name)) with e | next
      · have hunlisted : (tree f fs).kids (below parent depth child) inode = .error e :=
          kids_eq_error.mpr hkids
        rw [Stateful.exec_bind, Stateful.exec_ofAsking, hkids,
          Graph.walk_unlisted hguard hinode hopens hunlisted]
        rfl
      · have hlisted : (tree f fs).kids (below parent depth child) inode =
            .ok (Frame.places ⟨childPath parent child.name, depth + 1, next⟩) :=
          kids_eq_ok.mpr ⟨next, hkids, rfl⟩
        rw [Stateful.exec_ofAsking_bind hkids, exec_lsLoop,
          Graph.walk_enter hguard hinode hopens hlisted]
        rfl
    · have hpass : ¬ ((tree f fs).opens inode = true ∧ (tree f fs).key inode ∉ visited) :=
        mt new_iff.mpr hnew
      have hmark : (inode.isDir && visited.contains inode.inodeNumber) = inode.isDir := by
        cases hdir : inode.isDir with
        | false => rfl
        | true =>
          rw [hdir, Bool.true_and] at hnew
          rw [Bool.true_and]
          exact Bool.not_eq_false _ |>.mp fun hseen => hnew ⟨rfl, hseen⟩
      rw [dif_neg hnew, hmark, exec_lsLoop, Graph.walk_pass hguard hinode hpass]
      rfl
termination_by (unseen visited, framesLeft stack)
decreasing_by
  · exact .right _ (by simp [framesLeft])
  · exact .left _ _ (unseen_cons_lt (new_iff.mp hnew).2)
  · exact .right _ (by simp [framesLeft])

/-! ## The order of the names -/

theorem nameOrder_trans (a b c : DirEntry) (h : decide (a.name ≤ b.name) = true)
    (h' : decide (b.name ≤ c.name) = true) : decide (a.name ≤ c.name) = true :=
  decide_eq_true (List.le_trans (of_decide_eq_true h) (of_decide_eq_true h'))

theorem nameOrder_total (a b : DirEntry) :
    (decide (a.name ≤ b.name) || decide (b.name ≤ a.name)) = true := by
  rw [Bool.or_eq_true, decide_eq_true_iff, decide_eq_true_iff]
  exact List.le_total a.name b.name

theorem exec_children (node : Inode) (what : Bytes) :
    Asking.exec f (children fs node what) =
      mapErr (CliError.squashfsError what) (Asking.exec f (fs.readDir node)) >>= fun entries =>
        .ok (entries.mergeSort fun a b => decide (a.name ≤ b.name)) := by
  unfold children about
  rw [Asking.exec_bind, Asking.exec_mapErr]
  rfl

/-- A directory's children are its entries, sorted by the bytes of their names. -/
theorem children_sorted {node : Inode} {what : Bytes} {l : List DirEntry}
    (h : Asking.exec f (children fs node what) = .ok l) :
    l.Pairwise (fun a b => a.name ≤ b.name) ∧
      ∃ entries, Asking.exec f (fs.readDir node) = .ok entries ∧ l.Perm entries := by
  rw [exec_children] at h
  obtain ⟨entries, hread, hsort⟩ := bind_eq_ok.mp h
  cases hsort
  refine ⟨?_, entries, mapErr_eq_ok.mp hread, List.mergeSort_perm _ _⟩
  exact (List.pairwise_mergeSort nameOrder_trans nameOrder_total entries).imp of_decide_eq_true

/-! ## Listings without bounds -/

/-- What a listing would print without bounds: the entries in the order of the recursive
traversal, the children it comes to (those of the entries, and one that cannot be read), and how
it ends. -/
structure FullListing where
  entries : List RecursiveEntry
  reached : List (Bytes × Nat)
  result : Outcome CliError Unit

/-- The recursive traversal of the tree below a path. -/
def fullListing (f : ∀ q, Reply q) (fs : Filesystem) (path : Bytes) : FullListing :=
  match Asking.exec f (about path (fs.lookupPathBytes path)) with
  | .error e => ⟨[], [], .error e⟩
  | .ok inode =>
    if inode.isDir then
      match Asking.exec f (children fs inode (fullPath path)) with
      | .error e => ⟨[], [], .error e⟩
      | .ok first =>
        let t := (tree f fs).trace [inode.inodeNumber] (first.map (below (fullPath path) 0))
        ⟨t.visits.map shown, t.reached.map fun p => (p.full, p.depth),
          ending (t.halt.map Halt.error)⟩
    else ⟨[recursiveEntry (fullPath path) 0 inode false], [(fullPath path, 0)], .ok ()⟩

/-- The inode numbers of the directories among the entries that are not marked as revisited. -/
def entered (entries : List RecursiveEntry) : List UInt32 :=
  (entries.filter fun e => e.type == .dir && !e.revisited).map fun e => e.inode

/-- The listing of a path, whatever the image behind it holds. -/
structure RecursiveListing (f : ∀ q, Reply q) (fs : Filesystem) (path : Bytes) : Prop where
  /-- The walk ends. -/
  returns : ∀ bounds, Returns (Stateful.exec f (lsRecursive fs path bounds) []).1
  /-- No directory is listed twice. -/
  once : ∀ bounds start, Asking.exec f (fs.lookupPathBytes path) = .ok start →
    start.isDir = true →
    (start.inodeNumber :: entered (Stateful.exec f (lsRecursive fs path bounds) []).2).Nodup
  /-- Every further occurrence of one is marked. -/
  marked : ∀ bounds start, Asking.exec f (fs.lookupPathBytes path) = .ok start →
    start.isDir = true → ∀ pre e post,
    (Stateful.exec f (lsRecursive fs path bounds) []).2 = pre ++ e :: post →
      (e.revisited = true ↔ e.type = .dir ∧ e.inode ∈ start.inodeNumber :: entered pre)
  /-- Depths are small. -/
  depth_le : ∀ bounds, ∀ e ∈ (Stateful.exec f (lsRecursive fs path bounds) []).2,
    e.depth ≤ 2 ^ 32
  /-- Children come in the order of their names. -/
  sorted : ∀ node what l, Asking.exec f (children fs node what) = .ok l →
    l.Pairwise (fun a b => a.name ≤ b.name) ∧
      ∃ entries, Asking.exec f (fs.readDir node) = .ok entries ∧ l.Perm entries
  /-- A listing whose children are all within the bounds is printed whole. -/
  fits : ∀ bounds : ListBounds,
    (∀ n full depth, (fullListing f fs path).reached[n]? = some (full, depth) →
      bounds.refuses n full depth = none) →
    Stateful.exec f (lsRecursive fs path bounds) [] =
      ((fullListing f fs path).result, (fullListing f fs path).entries)
  /-- Any other is printed up to the first child past a bound, which the error names. -/
  cuts : ∀ (bounds : ListBounds) n full depth e,
    (fullListing f fs path).reached[n]? = some (full, depth) →
    bounds.refuses n full depth = some e →
    (∀ m full' depth', m < n → (fullListing f fs path).reached[m]? = some (full', depth') →
      bounds.refuses m full' depth' = none) →
    Stateful.exec f (lsRecursive fs path bounds) [] =
      (.error e, (fullListing f fs path).entries.take n)

section Cases

variable {path : Bytes} {bounds : ListBounds} {start : Inode} {visited : List UInt32}

theorem about_eq_ok {α : Type} {what : Bytes} {m : Prog α} {a : α} :
    Asking.exec f (about what m) = .ok a ↔ Asking.exec f m = .ok a := by
  rw [about, Asking.exec_mapErr]
  exact mapErr_eq_ok

theorem exec_lookup_error {e : Fail CliError}
    (h : Asking.exec f (about path (fs.lookupPathBytes path)) = .error e) :
    Stateful.exec f (lsRecursive fs path bounds) [] = (.error e, []) := by
  unfold lsRecursive
  rw [Stateful.exec_bind, Stateful.exec_ofAsking, h]

theorem exec_file (h : Asking.exec f (about path (fs.lookupPathBytes path)) = .ok start)
    (hfile : ¬ start.isDir = true) :
    Stateful.exec f (lsRecursive fs path bounds) [] =
      if bounds.limit = 0 then
        (.error (.err (.boundReached "--limit" bounds.limit (fullPath path))), [])
      else (.ok (), [recursiveEntry (fullPath path) 0 start false]) := by
  unfold lsRecursive
  rw [Stateful.exec_ofAsking_bind h, if_pos hfile]
  by_cases hlimit : bounds.limit = 0
  · rw [if_pos hlimit, if_pos hlimit]
    rfl
  · rw [if_neg hlimit, if_neg hlimit, Stateful.exec_get_bind]
    rfl

theorem exec_dir_error (h : Asking.exec f (about path (fs.lookupPathBytes path)) = .ok start)
    (hdir : start.isDir = true) {e : Fail CliError}
    (hfirst : Asking.exec f (children fs start (fullPath path)) = .error e) :
    Stateful.exec f (lsRecursive fs path bounds) [] = (.error e, []) := by
  unfold lsRecursive
  rw [Stateful.exec_ofAsking_bind h, if_neg (not_not_intro hdir), Stateful.exec_bind,
    Stateful.exec_ofAsking, hfirst]

theorem exec_dir (h : Asking.exec f (about path (fs.lookupPathBytes path)) = .ok start)
    (hdir : start.isDir = true) {first : List DirEntry}
    (hfirst : Asking.exec f (children fs start (fullPath path)) = .ok first) :
    Stateful.exec f (lsRecursive fs path bounds) [] =
      (ending ((tree f fs).walk bounds.guard [start.inodeNumber] []
          [first.map (below (fullPath path) 0)]).2,
        ((tree f fs).walk bounds.guard [start.inodeNumber] []
          [first.map (below (fullPath path) 0)]).1.map shown) := by
  unfold lsRecursive
  rw [Stateful.exec_ofAsking_bind h, if_neg (not_not_intro hdir),
    Stateful.exec_ofAsking_bind hfirst]
  exact exec_lsLoop bounds [start.inodeNumber] [] [⟨fullPath path, 0, first⟩]

theorem fullListing_error {e : Fail CliError}
    (h : Asking.exec f (about path (fs.lookupPathBytes path)) = .error e) :
    fullListing f fs path = ⟨[], [], .error e⟩ := by
  unfold fullListing
  rw [h]

theorem fullListing_file (h : Asking.exec f (about path (fs.lookupPathBytes path)) = .ok start)
    (hfile : ¬ start.isDir = true) :
    fullListing f fs path =
      ⟨[recursiveEntry (fullPath path) 0 start false], [(fullPath path, 0)], .ok ()⟩ := by
  unfold fullListing
  rw [h]
  exact if_neg hfile

theorem fullListing_dir_error
    (h : Asking.exec f (about path (fs.lookupPathBytes path)) = .ok start)
    (hdir : start.isDir = true) {e : Fail CliError}
    (hfirst : Asking.exec f (children fs start (fullPath path)) = .error e) :
    fullListing f fs path = ⟨[], [], .error e⟩ := by
  unfold fullListing
  rw [h]
  dsimp only
  rw [if_pos hdir, hfirst]

theorem fullListing_dir (h : Asking.exec f (about path (fs.lookupPathBytes path)) = .ok start)
    (hdir : start.isDir = true) {first : List DirEntry}
    (hfirst : Asking.exec f (children fs start (fullPath path)) = .ok first) :
    fullListing f fs path =
      ⟨((tree f fs).trace [start.inodeNumber] (first.map (below (fullPath path) 0))).visits.map
          shown,
        ((tree f fs).trace [start.inodeNumber] (first.map (below (fullPath path) 0))).reached.map
          fun p => (p.full, p.depth),
        ending (((tree f fs).trace [start.inodeNumber]
          (first.map (below (fullPath path) 0))).halt.map Halt.error)⟩ := by
  unfold fullListing
  rw [h]
  dsimp only
  rw [if_pos hdir, hfirst]

/-! ## Errors are reported -/

theorem reported_about {α : Type} {what : Bytes} {m : Prog α} {e : Fail CliError}
    (hm : Returns (Asking.exec f m)) (h : Asking.exec f (about what m) = .error e) :
    e.Reported := by
  rw [about, Asking.exec_mapErr] at h
  have hreturns : Returns (mapErr (CliError.squashfsError what) (Asking.exec f m)) :=
    returns_mapErr.mpr hm
  rwa [h] at hreturns

theorem reported_children (hf : Tame f) {node : Inode} {what : Bytes} {e : Fail CliError}
    (hgeo : node.Geometry fs.sb) (h : Asking.exec f (children fs node what) = .error e) :
    e.Reported := by
  have hreturns : Returns (Asking.exec f (children fs node what)) := by
    rw [exec_children]
    exact returns_bind (returns_mapErr.mpr (safe_readDir hf hgeo).returns) fun _ _ => trivial
  rwa [h] at hreturns

theorem reported_walk (hf : Tame f) {stack : List (List Place)} {e : Fail CliError}
    (h : ((tree f fs).walk bounds.guard visited [] stack).2 = some e) : e.Reported := by
  refine Graph.walk_error (fun m p e hrefused => ?_) (fun p e hread => ?_)
    (fun p node e hread hkids => ?_) h
  · unfold ListBounds.guard ListBounds.refuses at hrefused
    split at hrefused
    · cases hrefused
      trivial
    · split at hrefused
      · cases hrefused
        trivial
      · cases hrefused
  · exact reported_about (fs.safe_readInode hf _).returns hread
  · have hgeo := (fs.safe_readInode hf _).of_eq (about_eq_ok.mp hread)
    exact reported_children hf hgeo (kids_eq_error.mp hkids)

/-- Where a listing of a path begins, and what becomes of one that does not. -/
theorem listing_cases (hf : Tame f) (path : Bytes) :
    (∃ e, e.Reported ∧ fullListing f fs path = ⟨[], [], .error e⟩ ∧
      ∀ bounds, Stateful.exec f (lsRecursive fs path bounds) [] = (.error e, [])) ∨
    (∃ start, Asking.exec f (about path (fs.lookupPathBytes path)) = .ok start ∧
      ¬ start.isDir = true) ∨
    ∃ start first, Asking.exec f (about path (fs.lookupPathBytes path)) = .ok start ∧
      start.isDir = true ∧ Asking.exec f (children fs start (fullPath path)) = .ok first := by
  rcases hlookup : Asking.exec f (about path (fs.lookupPathBytes path)) with e | start
  · exact .inl ⟨e, reported_about (fs.safe_lookupPathBytes hf path).returns hlookup,
      fullListing_error hlookup, fun _ => exec_lookup_error hlookup⟩
  by_cases hdir : start.isDir = true
  · rcases hfirst : Asking.exec f (children fs start (fullPath path)) with e | first
    · have hgeo := (fs.safe_lookupPathBytes hf path).of_eq (about_eq_ok.mp hlookup)
      exact .inl ⟨e, reported_children hf hgeo hfirst, fullListing_dir_error hlookup hdir hfirst,
        fun _ => exec_dir_error hlookup hdir hfirst⟩
    · exact .inr (.inr ⟨start, first, rfl, hdir, hfirst⟩)
  · exact .inr (.inl ⟨start, rfl, hdir⟩)

end Cases

/-! ## The listing -/

theorem isDir_iff (inode : Inode) : inode.isDir = true ↔ inode.fileType = .dir := beq_iff_eq

theorem entered_shown (visits : List (Visit Place Inode)) :
    entered (visits.map shown) = (tree f fs).opened visits := by
  unfold entered Graph.opened
  rw [List.filter_map, List.map_map]
  rfl

theorem card_keys : Nat.card UInt32 = 2 ^ 32 := by
  have hcard : Nat.card UInt32 = Nat.card (Fin (2 ^ 32)) :=
    Nat.card_eq_of_bijective UInt32.toFin
      ⟨fun _ _ h => UInt32.toFin_inj.mp h, fun i => ⟨UInt32.ofFin i, rfl⟩⟩
  rw [hcard, Nat.card_eq_fintype_card, Fintype.card_fin]

theorem limit_zero_iff {limit : UInt64} : limit.toNat ≤ 0 ↔ limit = 0 := by
  rw [Nat.le_zero, ← UInt64.toNat_inj]
  rfl

/-- The entries of a directory's listing are marked visits of the tree. -/
theorem marked_listing {path : Bytes} {start : Inode} (bounds : ListBounds)
    (hstart : Asking.exec f (fs.lookupPathBytes path) = .ok start) (hdir : start.isDir = true) :
    ∃ visits, (tree f fs).Marked [start.inodeNumber] visits ∧
      (Stateful.exec f (lsRecursive fs path bounds) []).2 = visits.map shown := by
  have hnil : (tree f fs).Marked [start.inodeNumber] [] :=
    Graph.marked_nil (List.nodup_singleton _)
  have habout : Asking.exec f (about path (fs.lookupPathBytes path)) = .ok start :=
    about_eq_ok.mpr hstart
  rcases hfirst : Asking.exec f (children fs start (fullPath path)) with e | first
  · refine ⟨[], hnil, ?_⟩
    rw [exec_dir_error habout hdir hfirst]
    rfl
  · rw [exec_dir habout hdir hfirst]
    exact ⟨_, Graph.walk_marked (fun k => Iff.rfl) hnil, rfl⟩

theorem listing_depth_le (hf : Tame f) (path : Bytes) (bounds : ListBounds) :
    ∀ e ∈ (Stateful.exec f (lsRecursive fs path bounds) []).2, e.depth ≤ 2 ^ 32 := by
  rcases listing_cases hf path with ⟨e, -, -, hrun⟩ | ⟨start, hstart, hfile⟩ |
    ⟨start, first, hstart, hdir, hfirst⟩
  · rw [hrun]
    exact fun e he => absurd he List.not_mem_nil
  · rw [exec_file hstart hfile]
    intro e he
    split at he
    · exact absurd he List.not_mem_nil
    · rw [List.mem_singleton.mp he]
      exact Nat.zero_le _
  · rw [exec_dir hstart hdir hfirst]
    intro e he
    obtain ⟨x, hx, rfl⟩ := List.mem_map.mp he
    rw [← card_keys]
    refine Graph.walk_depth Place.depth (fun p node l hkids q hq => ?_)
      (List.nodup_singleton _) (fun l hl q hq => ?_)
      (fun x hx => absurd hx List.not_mem_nil) x hx
    · obtain ⟨next, -, rfl⟩ := kids_eq_ok.mp hkids
      obtain ⟨child, -, rfl⟩ := List.mem_map.mp hq
      exact Nat.le_refl _
    · rw [List.mem_singleton.mp hl] at hq
      obtain ⟨child, -, rfl⟩ := List.mem_map.mp hq
      exact Nat.le_refl 1

theorem recursiveListing_of_tame (hf : Tame f) (path : Bytes) : RecursiveListing f fs path where
  returns bounds := by
    rcases listing_cases hf path with ⟨e, he, -, hrun⟩ | ⟨start, hstart, hfile⟩ |
      ⟨start, first, hstart, hdir, hfirst⟩
    · rw [hrun]
      exact he
    · rw [exec_file hstart hfile]
      split <;> trivial
    · rw [exec_dir hstart hdir hfirst]
      rcases hend : ((tree f fs).walk bounds.guard [start.inodeNumber] []
        [first.map (below (fullPath path) 0)]).2 with - | e
      · trivial
      · exact reported_walk hf hend
  once bounds start hstart hdir := by
    obtain ⟨visits, hmarked, hvisits⟩ := marked_listing bounds hstart hdir
    rw [hvisits, @entered_shown f fs]
    exact hmarked.once
  marked bounds start hstart hdir pre e post h := by
    obtain ⟨visits, hmarked, hvisits⟩ := marked_listing bounds hstart hdir
    rw [hvisits] at h
    obtain ⟨before, rest, rfl, rfl, hrest⟩ := List.map_eq_append_iff.mp h
    obtain ⟨x, after, rfl, rfl, -⟩ := List.map_eq_cons_iff.mp hrest
    rw [@entered_shown f fs]
    exact hmarked.marks before x after rfl |>.trans (and_congr_left' (isDir_iff x.node))
  depth_le bounds := listing_depth_le hf path bounds
  sorted node what l h := children_sorted h
  fits bounds h := by
    rcases listing_cases hf path with ⟨e, -, hfull, hrun⟩ | ⟨start, hstart, hfile⟩ |
      ⟨start, first, hstart, hdir, hfirst⟩
    · rw [hrun, hfull]
    · rw [fullListing_file hstart hfile] at h ⊢
      have hlimit : ¬ bounds.limit = 0 := fun hzero => by
        have hnone := h 0 _ _ rfl
        rw [ListBounds.refuses, if_pos (limit_zero_iff.mpr hzero)] at hnone
        cases hnone
      rw [exec_file hstart hfile, if_neg hlimit]
    · rw [fullListing_dir hstart hdir hfirst] at h ⊢
      rw [exec_dir hstart hdir hfirst, Graph.walk_none]
      intro n p hp
      refine h n p.full p.depth ?_
      rw [List.getElem?_map, hp]
      rfl
  cuts bounds n full depth e hn he hbefore := by
    rcases listing_cases hf path with ⟨e, -, hfull, hrun⟩ | ⟨start, hstart, hfile⟩ |
      ⟨start, first, hstart, hdir, hfirst⟩
    · rw [hfull] at hn
      cases hn
    · rw [fullListing_file hstart hfile] at hn ⊢
      cases n with
      | zero =>
        cases hn
        rw [exec_file hstart hfile]
        by_cases hlimit : bounds.limit = 0
        · rw [ListBounds.refuses, if_pos (limit_zero_iff.mpr hlimit)] at he
          cases he
          rw [if_pos hlimit]
          rfl
        · rw [ListBounds.refuses, if_neg (mt limit_zero_iff.mp hlimit), if_neg (Nat.not_lt_zero _)]
            at he
          cases he
      | succ n => cases hn
    · rw [fullListing_dir hstart hdir hfirst] at hn hbefore ⊢
      rw [List.getElem?_map, Option.map_eq_some_iff] at hn
      obtain ⟨p, hp, heq⟩ := hn
      cases heq
      rw [exec_dir hstart hdir hfirst, Graph.walk_first hp he, List.map_take]
      · rfl
      · intro m q hm hq
        refine hbefore m q.full q.depth hm ?_
        rw [List.getElem?_map, hq]
        rfl

/-- **Recursive listings.** -/
theorem recursive_listing (codecs : Codecs) (fs : Filesystem) (path : Bytes) :
    RecursiveListing (fs.answers codecs) fs path :=
  recursiveListing_of_tame (fs.tame_answers codecs) path

end Cli

end Squashfs
